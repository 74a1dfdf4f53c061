import MoacVnode.Consensus.Clique.SealAgreement
import MoacVnode.Consensus.Clique.SnapshotCache

/-!
# One block of every window for each signer

The recent list names the signers of the last blocks, each of them once.
-/

namespace MoacVnode.Consensus.Clique

open MoacVnode.Core Lib List Nat Snapshot

variable {engine : Engine} {now : Nat} {known : Header → Prop} {headers : List Header}
  {genesis : Header} {header last : Header} {ecrecover : Header → Except CliqueError Address}
  {top bottom : Hash} {config : CliqueConfig} {signer : Address} {snap : Snapshot}
  {genesisNumber : genesis.number = 0}

namespace Voting

variable {voting next : Voting} {num block : Nat} {addr : Address}

theorem lookup_updateSigners_of_eq_some
    (got : (voting.updateSigners num addr).recents.lookup block = some signer) :
    voting.recents.lookup block = some signer := by
  rcases voting.updateSigners_cases num addr with
    ⟨unchanged, -⟩ | ⟨tally, -, -, added⟩ | ⟨tally, -, -, removed⟩
  · rwa [unchanged] at got
  · rwa [added] at got
  · rw [removed] at got
    obtain ⟨votes, tallies, discarded⟩ :=
      ((voting.removeSigner addr).shiftRecents num).discardVotesBy_eq addr
    rw [discarded] at got
    exact (lookup_shiftRecents.mp got).1

theorem lookup_updateSigners_of_signers_eq
    (sameSigners : (voting.updateSigners num addr).signers = voting.signers)
    (got : voting.recents.lookup block = some signer) (notOldest : block + voting.limit ≠ num) :
    (voting.updateSigners num addr).recents.lookup block = some signer := by
  rcases voting.updateSigners_cases num addr with
    ⟨unchanged, -⟩ | ⟨tally, -, -, added⟩ | ⟨tally, -, -, removed⟩
  · rwa [unchanged]
  · rwa [added]
  · rw [removed] at sameSigners ⊢
    obtain ⟨votes, tallies, discarded⟩ :=
      ((voting.removeSigner addr).shiftRecents num).discardVotesBy_eq addr
    rw [discarded] at sameSigners ⊢
    have erased : (voting.removeSigner addr).signers = voting.signers := by
      rw [← shiftRecents_signers num]
      exact sameSigners
    refine lookup_shiftRecents.mpr ⟨got, ?_⟩
    unfold limit at notOldest ⊢
    rwa [erased]

/-- What a header that is applied does to the recent list. -/
structure Recorded (voting next : Voting) (num : Nat) (signer : Address) : Prop where
  member : signer ∈ voting.signers
  fresh : ∀ block, voting.recents.lookup block = some signer → block + voting.limit = num
  only :
    ∀ block got, next.recents.lookup block = some got →
      block = num ∧ got = signer ∨
        block ≠ num ∧ voting.recents.lookup block = some got ∧ block + voting.limit ≠ num
  kept :
    next.signers = voting.signers → next.recents.lookup num = some signer ∧
      ∀ block got, block ≠ num → voting.recents.lookup block = some got →
        block + voting.limit ≠ num → next.recents.lookup block = some got

theorem applyHeader_recorded (applied : voting.applyHeader config ecrecover header = .ok next) :
    ∃ signer, ecrecover header = .ok signer ∧ Recorded voting next header.number signer := by
  obtain ⟨signer, recovered, member, notRecent, cast, castRecents, castSigners, castEq⟩ :=
    applyHeader_cast applied
  have sameLimit : cast.limit = voting.limit := by
    unfold limit
    rw [castSigners]
  have lookupCast (block : Nat) (got : Address) : cast.recents.lookup block = some got ↔
        block = header.number ∧ got = signer ∨
          block ≠ header.number ∧ voting.recents.lookup block = some got ∧
            block + voting.limit ≠ header.number := by
    rw [castRecents]
    by_cases current : block = header.number
    · subst current
      rw [show ((voting.shiftRecents header.number).recordSigner header.number
        signer).recents.lookup header.number = some signer from AList.lookup_insert _]
      simp [eq_comm]
    · rw [show ((voting.shiftRecents header.number).recordSigner header.number
        signer).recents.lookup block =
          (voting.shiftRecents header.number).recents.lookup block from
            AList.lookup_insert_ne current, lookup_shiftRecents]
      simp [current]
  refine ⟨signer, recovered, member, ?_, ?_, ?_⟩
  · intro block got
    by_contra notOldest
    exact notRecent block (lookup_shiftRecents.mpr ⟨got, notOldest⟩)
  · intro block got present
    rw [castEq] at present
    exact (lookupCast block got).mp (lookup_updateSigners_of_eq_some present)
  · intro sameSigners
    rw [castEq] at sameSigners ⊢
    have same : (cast.updateSigners header.number header.coinbase).signers = cast.signers :=
      sameSigners.trans castSigners.symm
    constructor
    · refine lookup_updateSigners_of_signers_eq same
        ((lookupCast header.number signer).mpr (.inl ⟨rfl, rfl⟩)) ?_
      unfold limit
      omega
    · intro block got notCurrent present notOldest
      refine lookup_updateSigners_of_signers_eq same
        ((lookupCast block got).mpr (.inr ⟨notCurrent, present, notOldest⟩)) ?_
      rwa [sameLimit]

/-- The recent list names signers of blocks of its window, and each of them once. -/
structure RecentSignersOf (ecrecover : Header → Except CliqueError Address)
    (headers : List Header) (voting : Voting) (num : Nat) : Prop where
  window : voting.RecentWindow num
  signed :
    ∀ block signer, voting.recents.lookup block = some signer →
      ∃ header ∈ headers, header.number = block ∧ ecrecover header = .ok signer
  distinct :
    ∀ block other signer, voting.recents.lookup block = some signer →
      voting.recents.lookup other = some signer → block = other

theorem RecentSignersOf.applyHeader (recent : RecentSignersOf ecrecover headers voting num)
    (numEq : header.number = num + 1)
    (applied : voting.applyHeader config ecrecover header = .ok next) :
    RecentSignersOf ecrecover (headers ++ [header]) next (num + 1) := by
  obtain ⟨signer, recovered, recorded⟩ := applyHeader_recorded applied
  refine ⟨recent.window.applyHeader numEq applied, ?_, ?_⟩
  · intro block got present
    rcases recorded.only block got present with ⟨rfl, rfl⟩ | ⟨-, before, -⟩
    · exact ⟨header, mem_append_right _ mem_cons_self, rfl, recovered⟩
    · obtain ⟨other, member, sameNumber, signed⟩ := recent.signed block got before
      exact ⟨other, mem_append_left _ member, sameNumber, signed⟩
  · intro block other got present otherPresent
    rcases recorded.only block got present with ⟨current, isSigner⟩ | ⟨-, before, notOldest⟩
    · rcases recorded.only other got otherPresent with
        ⟨otherCurrent, -⟩ | ⟨-, otherBefore, otherNotOldest⟩
      · rw [current, otherCurrent]
      · rw [isSigner] at otherBefore
        exact absurd (recorded.fresh other otherBefore) otherNotOldest
    · rcases recorded.only other got otherPresent with
        ⟨-, isSigner⟩ | ⟨-, otherBefore, -⟩
      · rw [isSigner] at before
        exact absurd (recorded.fresh block before) notOldest
      · exact recent.distinct block other got before otherBefore

/-- No signer signs two blocks that are less than `limit` apart. -/
def SignsOnce (ecrecover : Header → Except CliqueError Address) (limit : Nat)
    (headers : List Header) : Prop :=
  ∀ prior ∈ headers, ∀ later ∈ headers, prior.number < later.number →
    later.number < prior.number + limit →
      ∀ signer, ecrecover prior = .ok signer → ecrecover later ≠ .ok signer

theorem SignsOnce.concat {limit : Nat} (once : SignsOnce ecrecover limit headers)
    (below : ∀ other ∈ headers, other.number < header.number)
    (new : ∀ other ∈ headers, header.number < other.number + limit → ∀ signer, ecrecover other =
      .ok signer → ecrecover header ≠ .ok signer) :
    SignsOnce ecrecover limit (headers ++ [header]) := by
  intro prior earlierMem later laterMem before close signer signed
  rcases mem_append.mp earlierMem with earlierMem | earlierMem
  · rcases mem_append.mp laterMem with laterMem | laterMem
    · exact once prior earlierMem later laterMem before close signer signed
    · rw [mem_singleton.mp laterMem] at close ⊢
      exact new prior earlierMem close signer signed
  · rw [mem_singleton.mp earlierMem] at before
    rcases mem_append.mp laterMem with laterMem | laterMem
    · exact absurd before (not_lt.mpr (below later laterMem).le)
    · rw [mem_singleton.mp laterMem] at before
      exact absurd before (lt_irrefl _)

/-- While the signers stay the same, the recent list names all blocks of the window, and
no signer signs two of them. -/
structure SteadyWindow (ecrecover : Header → Except CliqueError Address)
    (headers : List Header) (voting : Voting) (num : Nat) : Prop where
  number_le : ∀ header ∈ headers, header.number ≤ num
  names :
    ∀ header ∈ headers, num < header.number + voting.limit →
      ∃ signer, ecrecover header = .ok signer ∧ voting.recents.lookup header.number = some signer
  once : SignsOnce ecrecover voting.limit headers

theorem SteadyWindow.applyHeader (steady : SteadyWindow ecrecover headers voting num)
    (numEq : header.number = num + 1) (sameSigners : next.signers = voting.signers)
    (applied : voting.applyHeader config ecrecover header = .ok next) :
    SteadyWindow ecrecover (headers ++ [header]) next (num + 1) := by
  obtain ⟨signer, recovered, recorded⟩ := applyHeader_recorded applied
  obtain ⟨current, kept⟩ := recorded.kept sameSigners
  have sameLimit : next.limit = voting.limit := by
    unfold limit
    rw [sameSigners]
  refine ⟨?_, ?_, ?_⟩
  · intro other member
    rcases mem_append.mp member with member | member
    · exact (steady.number_le other member).trans (le_succ num)
    · rw [mem_singleton.mp member, numEq]
  · intro other member close
    rcases mem_append.mp member with member | member
    · have lower := steady.number_le other member
      obtain ⟨got, signed, present⟩ := steady.names other member (by omega)
      exact ⟨got, signed, kept other.number got (by omega) present (by omega)⟩
    · rw [mem_singleton.mp member]
      exact ⟨signer, recovered, current⟩
  · rw [sameLimit]
    refine steady.once.concat (fun other member => ?_) ?_
    · have lower := steady.number_le other member
      omega
    · intro other member close got signed again
      obtain ⟨named, sameSigned, present⟩ := steady.names other member (by omega)
      rw [signed] at sameSigned
      cases sameSigned
      rw [recovered] at again
      cases again
      have oldest := recorded.fresh other.number present
      omega

end Voting

namespace Snapshot

variable {next last : Snapshot} {genesisHash : Hash} {signers : List Address}

theorem apply_concat_eq_ok (fits : (headers ++ [header]).length < uint64Size)
    (applied :
      (newSnapshot config 0 genesisHash signers).apply ecrecover (headers ++ [header]) = .ok last) :
    ∃ mid, (newSnapshot config 0 genesisHash signers).apply ecrecover headers = .ok mid ∧
      mid.number = headers.length ∧ header.number = headers.length + 1 ∧
      mid.applyHeader mid.config ecrecover header = .ok last.toVoting ∧
      last.number = headers.length + 1 := by
  rw [length_append, length_singleton] at fits
  obtain ⟨mid, appliedFirst, appliedLast⟩ := apply_append_eq_ok.mp applied
  have middleNumber := newSnapshot_apply_number (lt_of_succ_lt fits) appliedFirst
  obtain ⟨-, numEq, voting, ran, lastEq⟩ := apply_cons_eq_ok.mp appliedLast
  have taken : mid.applyHeader mid.config ecrecover header = .ok voting := by
    rw [run_cons_eq_ok] at ran
    simpa using ran
  subst lastEq
  rw [middleNumber] at numEq
  refine ⟨mid, appliedFirst, middleNumber, numEq.trans (next64_of_lt fits), taken, ?_⟩
  change (mid.number + 1) % uint64Size = _
  rw [middleNumber, mod_eq_of_lt fits]

theorem apply_recentSignersOf (fits : headers.length < uint64Size)
    (applied : (newSnapshot config 0 genesisHash signers).apply ecrecover headers = .ok last) :
    Voting.RecentSignersOf ecrecover headers last.toVoting last.number := by
  induction headers using List.reverseRecOn generalizing last with
  | nil =>
    cases applied
    exact ⟨newSnapshot_window config 0 genesisHash signers,
      fun _ _ got => (nomatch got), fun _ _ _ got => (nomatch got)⟩
  | append_singleton headers header ih =>
    obtain ⟨mid, appliedFirst, middleNumber, numEq, taken, lastNumber⟩ :=
      apply_concat_eq_ok fits applied
    rw [length_append, length_singleton] at fits
    have recent := ih (lt_of_succ_lt fits) appliedFirst
    rw [middleNumber] at recent
    rw [lastNumber]
    exact recent.applyHeader numEq taken

theorem apply_steadyWindow {steady : Finset Address} (fits : headers.length < uint64Size)
    (constant : ∀ before snap, before <+: headers →
        (newSnapshot config 0 genesisHash signers).apply ecrecover before = .ok snap →
          snap.signers = steady)
    (applied : (newSnapshot config 0 genesisHash signers).apply ecrecover headers = .ok last) :
    Voting.SteadyWindow ecrecover headers last.toVoting last.number := by
  induction headers using List.reverseRecOn generalizing last with
  | nil =>
    exact ⟨fun _ member => (nomatch member), fun _ member => (nomatch member),
      fun _ member => (nomatch member)⟩
  | append_singleton headers header ih =>
    obtain ⟨mid, appliedFirst, middleNumber, numEq, taken, lastNumber⟩ :=
      apply_concat_eq_ok fits applied
    have sameSigners : last.signers = mid.signers := by
      rw [constant _ last prefix_rfl applied,
        constant _ mid (prefix_append headers [header]) appliedFirst]
    have steadyFirst := ih (by rw [length_append, length_singleton] at fits; omega)
      (fun before snap isPrefix =>
        constant before snap (isPrefix.trans (prefix_append headers [header])))
      appliedFirst
    rw [middleNumber] at steadyFirst
    rw [lastNumber]
    exact steadyFirst.applyHeader numEq sameSigners taken

end Snapshot

/-- The headers of a chain, each of which passed `verifySeal` on the chain before it. -/
structure AcceptedChain (engine : Engine) (now : Nat) (genesis : Header)
    (genesisNumber : genesis.number = 0) (headers : List Header) : Prop where
  line : ∃ top, Lineage (fun _ => True) genesis.hash headers top
  verified :
    EachFold (fun before header => before ++ [header]) (fun before header =>
        verifySeal engine.ecrecover (fun num hash =>
            (engine.snapshot now (.ofList genesis genesisNumber before) {} num hash
              []).2) header = .ok ())
      [] headers

theorem gather_line {chain : ChainReader} {later gathered : List Header} {base : Snapshot}
    {after : Caches} (lineage : Lineage known bottom headers top)
    (available : ∀ header ∈ headers, chain.getHeader header.hash header.number = some header)
    (ret : engine.gather now chain {} headers.length top [] later = (after, .ok (base, gathered))) :
    gathered = headers ++ later := by
  induction lineage generalizing later with
  | nil =>
    exact (gather_zero_of_miss (Caches.find_empty 0 _) ret).2
  | @snoc headers header prior isKnown numEq ih =>
    have got := available header (mem_append_right _ mem_cons_self)
    rw [numEq] at got
    have picked : Engine.pickHeader chain (headers.length + 1) header.hash [] =
        .ok (header, []) := by
      simp [Engine.pickHeader, got]
    rw [length_append, length_singleton, Engine.gather, Caches.find_empty] at ret
    simp only [picked] at ret
    rw [ih (fun other member => available other (mem_append_left _ member)) ret, append_assoc]
    rfl

namespace Lineage

variable {other : Header}

theorem number_pos (lineage : Lineage known bottom headers top)
    (member : header ∈ headers) : 0 < header.number ∧ header.number ≤ headers.length := by
  induction lineage with
  | nil => cases member
  | @snoc headers last prior isKnown numEq ih =>
    rw [length_append, length_singleton]
    rcases mem_append.mp member with member | member
    · have bounds := ih member
      omega
    · rw [mem_singleton.mp member]
      omega

theorem eq_of_number_eq (lineage : Lineage known bottom headers top)
    (member : header ∈ headers) (otherMember : other ∈ headers)
    (sameNumber : header.number = other.number) : header = other := by
  induction lineage with
  | nil => cases member
  | @snoc headers last prior isKnown numEq ih =>
    rcases mem_append.mp member with member | member
    · rcases mem_append.mp otherMember with otherMember | otherMember
      · exact ih member otherMember
      · have bounds := prior.number_pos member
        rw [mem_singleton.mp otherMember] at sameNumber
        omega
    · rw [mem_singleton.mp member] at sameNumber ⊢
      rcases mem_append.mp otherMember with otherMember | otherMember
      · have bounds := prior.number_pos otherMember
        omega
      · rw [mem_singleton.mp otherMember]

theorem of_concat (lineage : Lineage known bottom (headers ++ [last]) top) :
    Lineage known bottom headers last.parentHash ∧ last.number = headers.length + 1 := by
  generalize whole : headers ++ [last] = all at lineage
  cases lineage with
  | nil => simp at whole
  | @snoc others header prior isKnown numEq =>
    obtain ⟨sameHeaders, sameLast⟩ := append_inj' whole rfl
    cases sameLast
    cases sameHeaders
    exact ⟨prior, numEq⟩

theorem available (genesisNumber : genesis.number = 0) (lineage : Lineage known bottom headers top)
    (member : header ∈ headers) :
    (ChainReader.ofList genesis genesisNumber headers).getHeader header.hash
      header.number = some header := by
  change (genesis :: headers).find? (fun other =>
    other.hash = header.hash ∧ other.number = header.number) = some header
  cases got : (genesis :: headers).find? (fun other =>
      other.hash = header.hash ∧ other.number = header.number) with
  | none =>
    have unfound := List.find?_eq_none.mp got header (mem_cons_of_mem _ member)
    simp at unfound
  | some first =>
    have sameNumber : first.number = header.number := by
      have matching := List.find?_some got
      simp only [decide_eq_true_eq] at matching
      exact matching.2
    rcases mem_cons.mp (mem_of_find?_eq_some got) with isGenesis | inHeaders
    · have bounds := lineage.number_pos member
      rw [isGenesis] at sameNumber
      omega
    · rw [lineage.eq_of_number_eq inHeaders member sameNumber]

end Lineage

theorem snapshot_of_line (lineage : Lineage known genesis.hash headers top)
    (retrieved : (engine.snapshot now (.ofList genesis genesisNumber headers) {} headers.length top
      []).2 = .ok snap) :
    (engine.genesisSnapshot genesis).apply engine.ecrecover headers = .ok snap := by
  unfold Engine.snapshot at retrieved
  cases ret : engine.gather now (.ofList genesis genesisNumber headers) {}
      headers.length top [] [] with
  | mk after res =>
    rw [ret] at retrieved
    cases res with
    | error error => cases retrieved
    | ok pair =>
      obtain ⟨base, gathered⟩ := pair
      have whole := gather_line lineage
        (fun header member => lineage.available genesisNumber member) ret
      have isGenesis :=
        (@gather_fresh base headers.length top [] engine genesis (fun _ => True) now
          (.ofList genesis genesisNumber headers) after [] gathered rfl (fun _ => trivial)
          (fun _ _ => trivial) ret).1
      rw [append_nil] at whole
      subst whole isGenesis
      dsimp only at retrieved
      cases applied : (engine.genesisSnapshot genesis).apply engine.ecrecover gathered with
      | error error =>
        rw [applied] at retrieved
        cases retrieved
      | ok last =>
        rw [applied] at retrieved
        cases retrieved
        rfl

theorem AcceptedChain.newest
    (accepted : AcceptedChain engine now genesis genesisNumber (headers ++ [last]))
    (fits : headers.length + 1 < uint64Size) :
    last.number = headers.length + 1 ∧
      ∃ snap signer, (engine.genesisSnapshot genesis).apply engine.ecrecover headers = .ok snap ∧
        snap.verifySigner engine.ecrecover last = .ok signer := by
  obtain ⟨top, whole⟩ := accepted.line
  obtain ⟨lineage, numEq⟩ := whole.of_concat
  obtain ⟨-, verified, -⟩ := eachFold_append.mp accepted.verified
  rw [foldl_append_eq_append, ← flatMap_def, flatMap_singleton', nil_append] at verified
  obtain ⟨-, snap, signer, retrieved, signed, -⟩ := verifySeal_eq_ok.mp verified
  rw [numEq, prev64_succ fits] at retrieved
  exact ⟨numEq, snap, signer, snapshot_of_line lineage retrieved, signed⟩

/-- A reachable snapshot has the signers of its window in the recent list, each once. In an accepted
chain with constant signers no signer signs two blocks of a window, exactly if the newest block is
above the first window or its signer has not signed before. -/
theorem signers_take_turns_iff (engine : Engine) (now : Nat) (genesis : Header)
    (genesisNumber : genesis.number = 0) :
    (∀ (genesisHash : Hash) (signers : List Address) (batches : List (List Header))
        (snap : Snapshot), batches.flatten.length < uint64Size →
      run (apply engine.ecrecover)
          (newSnapshot engine.config 0 genesisHash signers) batches = .ok snap →
        Voting.RecentSignersOf engine.ecrecover batches.flatten snap.toVoting snap.number) ∧
    ∀ (headers : List Header) (last : Header) (steady : Finset Address),
      headers.length + 1 < uint64Size → steady.card < 2 ^ 63 →
      AcceptedChain engine now genesis genesisNumber (headers ++ [last]) →
      (∀ before snap, before <+: headers →
        (engine.genesisSnapshot genesis).apply engine.ecrecover before = .ok snap →
          snap.signers = steady) →
      (Voting.SignsOnce engine.ecrecover (steady.card / 2 + 1) (headers ++ [last]) ↔
        steady.card / 2 + 1 ≤ last.number ∨
          ∀ header ∈ headers, ∀ signer, engine.ecrecover header = .ok signer →
            engine.ecrecover last ≠ .ok signer) := by
  constructor
  · intro genesisHash signers batches snap fits reached
    exact apply_recentSignersOf fits (run_apply_eq_ok.mp reached)
  · intro headers last steady fits small accepted constant
    obtain ⟨numEq, snap, signer, applied, verified⟩ := accepted.newest fits
    have sameSigners := constant headers snap prefix_rfl applied
    have limitEq : snap.limit = steady.card / 2 + 1 := by
      unfold Voting.limit
      rw [sameSigners]
    have window := apply_steadyWindow (lt_of_succ_lt fits) constant applied
    have snapNumber := newSnapshot_apply_number (lt_of_succ_lt fits) applied
    have below (header : Header) (member : header ∈ headers) : header.number < last.number := by
      have lower := window.number_le header member
      omega
    constructor
    · intro once
      refine or_iff_not_imp_left.mpr fun inFirstWindow header member => ?_
      exact once header (mem_append_left _ member) last
        (mem_append_right _ mem_cons_self) (below header member) (by omega)
    · intro condition
      rw [← limitEq]
      refine window.once.concat below fun header member close got signed => ?_
      rcases condition with above | new
      · obtain ⟨recovered, -, notRecent⟩ := Voting.resolveSigner_eq_ok.mp verified
        rw [Voting.recentAt_iff] at notRecent
        intro again
        obtain ⟨named, sameSigned, present⟩ := window.names header member (by omega)
        rw [signed] at sameSigned
        cases sameSigned
        rw [recovered] at again
        cases again
        refine notRecent ⟨header.number, present, ?_⟩
        unfold InWindow
        rw [sub64_of_le (by omega) (by omega)]
        omega
      · exact new header member got signed

private def listExtra (signers : List UInt8) : List UInt8 :=
  List.replicate 32 0 ++ signers.flatMap (fun byte => List.replicate 19 0 ++ [byte]) ++
    List.replicate 65 0

private def fourGenesis : Header where
  hash := 100
  parentHash := 0
  extra := listExtra [1, 2, 3, 4]

private def outOfTurn (num : Nat) : Header where
  hash := BitVec.ofNat 256 (100 + num)
  parentHash := BitVec.ofNat 256 (99 + num)
  number := num
  difficulty := 1

private theorem outOfTurnLine :
    Lineage (fun _ => True) fourGenesis.hash [outOfTurn 1, outOfTurn 2] 102 :=
  @Lineage.snoc _ _ [outOfTurn 1] (outOfTurn 2)
    (@Lineage.snoc _ _ [] (outOfTurn 1) .nil trivial rfl) trivial rfl

private def signedBy (first second : Address) : Engine where
  config := ⟨30000, thirtyThousand_pos⟩
  ecrecover header := .ok (if header.number = 1 then first else second)
  uncleHash := 0

private theorem verifySeal_outOfTurn {retrieve : Nat → Hash → Except CliqueError Snapshot}
    (retrieved : ∃ snap, retrieve (prev64 header.number) header.parentHash = .ok snap ∧
      snap.signers = [1, 2, 3, 4].toFinset ∧ snap.verifySigner ecrecover header = .ok signer)
    (notGenesis : header.number ≠ 0) (difficulty : header.difficulty = diffNoTurn)
    (notInTurn : header.number % 4 ≠ [1, 2, 3, 4].idxOf signer) :
    verifySeal ecrecover retrieve header = .ok () := by
  obtain ⟨snap, got, signers, verified⟩ := retrieved
  have ascending : snap.ascendingSigners = [1, 2, 3, 4] := by
    unfold ascendingSigners
    rw [signers]
    exact (toFinset_sort _ (by decide)).mpr (by decide)
  have inturn : snap.inturn header.number signer = .ok false := by
    unfold inturn
    rw [ascending]
    exact (if_neg (by decide)).trans (congrArg Except.ok (decide_eq_false notInTurn))
  refine verifySeal_eq_ok.mpr ⟨notGenesis, snap, signer, got, verified, ?_⟩
  unfold verifyDifficulty
  rw [inturn]
  simp [difficulty]

private theorem acceptedChain_outOfTurn (first second : Address)
    (verifiedFirst :
      ∃ snap, ((signedBy first second).snapshot 0 (.ofList fourGenesis rfl []) {} 0 100 []).2 =
          .ok snap ∧
        snap.signers = [1, 2, 3, 4].toFinset ∧
        snap.verifySigner (signedBy first second).ecrecover (outOfTurn 1) = .ok first)
    (verifiedSecond : ∃ snap,
        ((signedBy first second).snapshot 0 (.ofList fourGenesis rfl [outOfTurn 1]) {} 1 101
          []).2 = .ok snap ∧
        snap.signers = [1, 2, 3, 4].toFinset ∧
        snap.verifySigner (signedBy first second).ecrecover (outOfTurn 2) = .ok second)
    (notInTurn : 1 ≠ [1, 2, 3, 4].idxOf first ∧ 2 ≠ [1, 2, 3, 4].idxOf second) :
    AcceptedChain (signedBy first second) 0 fourGenesis rfl [outOfTurn 1, outOfTurn 2] where
  line := ⟨_, outOfTurnLine⟩
  verified :=
    ⟨verifySeal_outOfTurn verifiedFirst (by decide) rfl notInTurn.1,
      verifySeal_outOfTurn verifiedSecond (by decide) rfl notInTurn.2, trivial⟩

/-- One of four signers signs the first two blocks. Both pass `verifySeal`, although each window has
three blocks. -/
theorem signer_signs_first_two_blocks :
    AcceptedChain (signedBy 1 1) 0 fourGenesis rfl [outOfTurn 1, outOfTurn 2] ∧
      (∀ before ∈ [[], [outOfTurn 1]],
        ∃ snap, ((signedBy 1 1).genesisSnapshot fourGenesis).apply (signedBy 1 1).ecrecover
            before = .ok snap ∧ snap.signers = {1, 2, 3, 4}) ∧
      ¬ Voting.SignsOnce (signedBy 1 1).ecrecover 3 [outOfTurn 1, outOfTurn 2] := by
  refine ⟨acceptedChain_outOfTurn 1 1 (by decide +kernel) (by decide +kernel) (by decide),
    by decide +kernel, fun once => ?_⟩
  exact once (outOfTurn 1) mem_cons_self (outOfTurn 2)
    (mem_cons_of_mem _ mem_cons_self) (by decide) (by decide) 1 rfl rfl

/-- Two of them take turns. -/
theorem two_signers_take_turns :
    Voting.SignsOnce (signedBy 1 4).ecrecover 3 [outOfTurn 1, outOfTurn 2] := by
  have accepted := acceptedChain_outOfTurn 1 4 (by decide +kernel) (by decide +kernel) (by decide)
  have constant :
      ∀ before ∈ [[], [outOfTurn 1]],
        ∃ snap, ((signedBy 1 4).genesisSnapshot fourGenesis).apply (signedBy 1 4).ecrecover
            before = .ok snap ∧ snap.signers = {1, 2, 3, 4} := by
    decide +kernel
  refine ((signers_take_turns_iff (signedBy 1 4) 0 fourGenesis rfl).2 [outOfTurn 1]
    (outOfTurn 2) {1, 2, 3, 4} (by decide) (by decide) accepted ?_).mpr (.inr ?_)
  · intro before snap isInitial applied
    have member : before ∈ [[], [outOfTurn 1]] := by
      rw [← mem_inits] at isInitial
      exact isInitial
    obtain ⟨got, same, signers⟩ := constant before member
    rw [Except.ok.inj (applied.symm.trans same)]
    exact signers
  · intro header member signer signed
    rw [mem_singleton.mp member] at signed
    cases signed
    decide

end MoacVnode.Consensus.Clique
