import Mathlib.Data.List.AList
import MoacVnode.Core.Types
import MoacVnode.Lib.Run

/-!
# Verifying the uncles of a block

`VerifyUncles` walks back over at most seven ancestors of a block, collects their
hashes and those of their uncles, and checks the uncles of the block against the two
sets.  An uncle is a header whose parent is an ancestor above the block's own parent.

Block numbers are big integers; where the source takes `NumberU64` of one, a look-up
by number truncates it.  The parameters of the chain and the seal of a header are
parameters of the model.  The modes of the engine for tests are left out.
-/

namespace MoacVnode.Consensus.Ethash

open MoacVnode.Core Lib List AList

variable {hash : Hash} {header uncle : Header} {count num : Nat}

inductive EthashError where
  | futureBlock
  | invalidNumber
  | largeBlockTime
  | zeroBlockTime
  | tooManyUncles
  | duplicateUncle
  | uncleIsAncestor
  | danglingUncle
  /-- `extra-data too long: %d > %d`. -/
  | extraDataTooLong (length maximum : Nat)
  /-- `invalid difficulty: have %v, want %v`. -/
  | invalidDifficulty (difficulty : Nat) (expected : Int)
  /-- `invalid gasLimit: have %v, max %v`. -/
  | gasLimitTooHigh (gasLimit : Int)
  /-- `invalid gasUsed: have %v, gasLimit %v`. -/
  | gasUsedTooHigh (gasUsed gasLimit : Int)
  /-- `invalid gas limit: have %v, want %v += %v`. -/
  | invalidGasLimit (gasLimit parentLimit bound : Int)
  /-- An error of `VerifySeal`. -/
  | invalidSeal
  deriving DecidableEq, Repr

structure FullBlock extends Block where
  uncles : List Header := []
  deriving DecidableEq, Repr

/-- What the engine takes from the parameters of the chain, and the check of a seal. -/
structure Engine where
  maximumExtraDataSize : Nat
  gasLimitBoundDivisor : Int
  minGasLimit : Int
  difficultyBoundDivisor : Int
  minimumDifficulty : Int
  diffBombDefuseBlock : Nat
  /-- `types.EmptyUncleHash`. -/
  emptyUncleHash : Hash
  verifySeal : Header → Except EthashError Unit

def maxUncles : Nat := 2

def maxBig256 : Nat := 2 ^ 256 - 1

def maxBig63 : Int := 2 ^ 63 - 1

/-- Whether a header is verified as an uncle; the time of a block is compared with the
current time. -/
inductive HeaderKind where
  | block (now : Nat)
  | uncle
  deriving DecidableEq, Repr

namespace HeaderKind

def isUncle : HeaderKind → Bool
  | .block _ => false
  | .uncle => true

def isFuture : HeaderKind → Nat → Bool
  | .block now, time => decide (now < time)
  | .uncle, _ => false

end HeaderKind

namespace Engine

/-- `calcDifficultyPangu`. -/
def calcDifficulty (engine : Engine) (time : Nat) (parent : Header) : Int :=
  let elapsed : Int := ((time : Int) - parent.time) / 9
  let factor := (if parent.uncleHash = engine.emptyUncleHash then 1 else 2) - elapsed
  let adjusted : Int := parent.difficulty +
    parent.difficulty / engine.difficultyBoundDivisor * max factor (-99)
  let floored := max adjusted engine.minimumDifficulty
  -- the number of the block for the difficulty bomb
  let fakeBlockNumber :=
    if 2999999 ≤ parent.number ∧ parent.number < engine.diffBombDefuseBlock then
      parent.number - 2999999
    else 0
  let periodCount := fakeBlockNumber / 100000
  if 1 < periodCount then floored + 2 ^ (periodCount - 2) else floored

def verifyHeader (engine : Engine) (header parent : Header) (kind : HeaderKind)
    (withSeal : Bool) : Except EthashError Unit :=
  let expected := engine.calcDifficulty (header.time % uint64Size) parent
  let bound := parent.gasLimit / engine.gasLimitBoundDivisor
  if engine.maximumExtraDataSize < header.extra.length then
    .error (.extraDataTooLong header.extra.length engine.maximumExtraDataSize)
  else if kind.isUncle = true ∧ maxBig256 < header.time then .error .largeBlockTime
  else if kind.isFuture header.time = true then .error .futureBlock
  else if header.time ≤ parent.time then .error .zeroBlockTime
  else if expected ≠ header.difficulty then .error (.invalidDifficulty header.difficulty expected)
  else if maxBig63 < header.gasLimit then .error (.gasLimitTooHigh header.gasLimit)
  else if header.gasLimit < header.gasUsed then
    .error (.gasUsedTooHigh header.gasUsed header.gasLimit)
  else if bound ≤ (parent.gasLimit - header.gasLimit).natAbs ∨
      header.gasLimit < engine.minGasLimit then
    .error (.invalidGasLimit header.gasLimit parent.gasLimit bound)
  else if (header.number : Int) - parent.number ≠ 1 then .error .invalidNumber
  else if withSeal = true then engine.verifySeal header
  else .ok ()

end Engine

/-- The blocks that a walk back from a block meets, at most `count` of them. -/
def ancestorsFrom (getBlock : Hash → Nat → Option FullBlock) : Nat → Hash → Nat → List FullBlock
  | 0, _, _ => []
  | count + 1, hash, num =>
    match getBlock hash num with
    | none => []
    | some ancestor => ancestor :: ancestorsFrom getBlock count ancestor.parentHash (prev64 num)

theorem exists_of_mem_ancestorsFrom {getBlock : Hash → Nat → Option FullBlock}
    {ancestor : FullBlock} (mem : ancestor ∈ ancestorsFrom getBlock count hash num) :
    ∃ hash num, getBlock hash num = some ancestor := by
  induction count generalizing hash num with
  | zero => cases mem
  | succ count ih =>
    rw [ancestorsFrom] at mem
    cases got : getBlock hash num with
    | none =>
      rw [got] at mem
      cases mem
    | some first =>
      rw [got] at mem
      rcases mem_cons.mp mem with isFirst | further
      · rw [isFirst]
        exact ⟨hash, num, got⟩
      · exact ih further

structure Family where
  uncles : Finset Hash := ∅
  ancestors : AList fun _ : Hash => Header := ∅

namespace Family

def addAncestor (family : Family) (ancestor : FullBlock) : Family where
  uncles := family.uncles ∪ (ancestor.uncles.map Header.hash).toFinset
  ancestors := family.ancestors.insert ancestor.hash ancestor.header

def addBlock (family : Family) (block : FullBlock) : Family where
  uncles := insert block.hash family.uncles
  ancestors := family.ancestors.insert block.hash block.header

end Family

namespace Engine

variable (engine : Engine)

/-- The checks of one uncle; the uncle is entered for those after it. -/
def verifyUncle (block : FullBlock) (family : Family) (uncle : Header) :
    Except EthashError Family :=
  if uncle.hash ∈ family.uncles then .error .duplicateUncle
  else if (family.ancestors.lookup uncle.hash).isSome then .error .uncleIsAncestor
  else
    match family.ancestors.lookup uncle.parentHash with
    | none => .error .danglingUncle
    | some parent =>
      if uncle.parentHash = block.parentHash then .error .danglingUncle
      else
        match engine.verifyHeader uncle parent .uncle true with
        | .error error => .error error
        | .ok () => .ok { family with uncles := insert uncle.hash family.uncles }

variable (getBlock : Hash → Nat → Option FullBlock)

def recentAncestors (block : FullBlock) : List FullBlock :=
  ancestorsFrom getBlock 7 block.parentHash (prev64 block.number)

def familyOf (block : FullBlock) : Family :=
  ((recentAncestors getBlock block).foldl Family.addAncestor {}).addBlock block

def verifyUncles (block : FullBlock) : Except EthashError Unit :=
  if maxUncles < block.uncles.length then .error .tooManyUncles
  else
    match run (engine.verifyUncle block) (familyOf getBlock block) block.uncles with
    | .error error => .error error
    | .ok _ => .ok ()

end Engine

namespace Family

variable {family : Family} {recent : List FullBlock}

theorem mem_uncles_foldl :
    hash ∈ (recent.foldl addAncestor family).uncles ↔
      hash ∈ family.uncles ∨ ∃ ancestor ∈ recent, ∃ uncle ∈ ancestor.uncles, uncle.hash = hash := by
  induction recent generalizing family with
  | nil => simp
  | cons ancestor recent ih =>
    rw [foldl_cons, ih]
    simp [addAncestor, or_assoc]

theorem lookup_foldl (got : (recent.foldl addAncestor family).ancestors.lookup hash = some header) :
    family.ancestors.lookup hash = some header ∨
      ∃ ancestor ∈ recent, ancestor.hash = hash ∧ ancestor.header = header := by
  induction recent generalizing family with
  | nil => exact .inl got
  | cons ancestor recent ih =>
    rcases ih got with before | ⟨other, mem, entered⟩
    · by_cases same : hash = ancestor.hash
      · subst same
        rw [addAncestor, lookup_insert] at before
        exact .inr ⟨ancestor, mem_cons_self, rfl, Option.some.inj before⟩
      · rw [addAncestor, lookup_insert_ne same] at before
        exact .inl before
    · exact .inr ⟨other, mem_cons_of_mem ancestor mem, entered⟩

theorem isSome_lookup_foldl :
    ((recent.foldl addAncestor family).ancestors.lookup hash).isSome ↔
      (family.ancestors.lookup hash).isSome ∨ ∃ ancestor ∈ recent, ancestor.hash = hash := by
  induction recent generalizing family with
  | nil => simp
  | cons ancestor recent ih =>
    rw [foldl_cons, ih]
    by_cases same : hash = ancestor.hash
    · subst same
      simp [addAncestor]
    · simp [addAncestor, lookup_insert_ne same, Ne.symm same]

end Family

namespace Engine

variable {engine : Engine} {getBlock : Hash → Nat → Option FullBlock} {block : FullBlock}
  {family : Family}

theorem mem_uncles_familyOf :
    hash ∈ (familyOf getBlock block).uncles ↔
      hash = block.hash ∨
        ∃ ancestor ∈ recentAncestors getBlock block, ∃ uncle ∈ ancestor.uncles,
          uncle.hash = hash := by
  rw [familyOf, Family.addBlock, Finset.mem_insert, Family.mem_uncles_foldl]
  simp

theorem isSome_lookup_familyOf :
    ((familyOf getBlock block).ancestors.lookup hash).isSome ↔
      hash = block.hash ∨ ∃ ancestor ∈ recentAncestors getBlock block, ancestor.hash = hash := by
  rw [familyOf, Family.addBlock]
  by_cases same : hash = block.hash
  · subst same
    simp
  · rw [lookup_insert_ne same, Family.isSome_lookup_foldl]
    simp [same]

theorem lookup_familyOf (got : (familyOf getBlock block).ancestors.lookup hash = some header) :
    hash = block.hash ∧ header = block.header ∨
      ∃ ancestor ∈ recentAncestors getBlock block,
        ancestor.hash = hash ∧ ancestor.header = header := by
  rw [familyOf, Family.addBlock] at got
  by_cases same : hash = block.hash
  · subst same
    rw [lookup_insert] at got
    exact .inl ⟨rfl, (Option.some.inj got).symm⟩
  · rw [lookup_insert_ne same] at got
    rcases Family.lookup_foldl got with impossible | entered
    · cases impossible
    · exact .inr entered

theorem verifyUncle_eq_ok {next : Family} :
    engine.verifyUncle block family uncle = .ok next ↔
      uncle.hash ∉ family.uncles ∧ family.ancestors.lookup uncle.hash = none ∧
        (∃ parent, family.ancestors.lookup uncle.parentHash = some parent ∧
          uncle.parentHash ≠ block.parentHash ∧
          engine.verifyHeader uncle parent .uncle true = .ok ()) ∧
        next = { family with uncles := insert uncle.hash family.uncles } := by
  unfold verifyUncle
  rw [ite_error_eq_ok, ite_error_eq_ok, Bool.not_eq_true, Option.isSome_eq_false_iff,
    Option.isNone_iff_eq_none]
  refine and_congr_right fun _ => and_congr_right fun _ => ?_
  cases family.ancestors.lookup uncle.parentHash with
  | none => simp
  | some parent =>
    rw [ite_error_eq_ok]
    cases verified : engine.verifyHeader uncle parent .uncle true with
    | error error => simp [verified]
    | ok passed => simp [verified, eq_comm]

theorem run_verifyUncle_returns {uncles : List Header} :
    (∃ last, run (engine.verifyUncle block) family uncles = .ok last) ↔
      (uncles.map Header.hash).Nodup ∧
        ∀ uncle ∈ uncles, uncle.hash ∉ family.uncles ∧
          family.ancestors.lookup uncle.hash = none ∧
          ∃ parent, family.ancestors.lookup uncle.parentHash = some parent ∧
            uncle.parentHash ≠ block.parentHash ∧
            engine.verifyHeader uncle parent .uncle true = .ok () := by
  induction uncles generalizing family with
  | nil => simp
  | cons uncle uncles ih =>
    have unfolded : (∃ last, run (engine.verifyUncle block) family (uncle :: uncles) = .ok last) ↔
          ∃ next, engine.verifyUncle block family uncle = .ok next ∧
            ∃ last, run (engine.verifyUncle block) next uncles = .ok last := by
      simp only [run_cons_eq_ok]
      exact exists_comm.trans (exists_congr fun next => exists_and_left)
    rw [unfolded, map_cons, nodup_cons, forall_mem_cons]
    constructor
    · intro ⟨next, checked, rest⟩
      obtain ⟨new, notAncestor, parent, nextEq⟩ := verifyUncle_eq_ok.mp checked
      obtain ⟨distinct, others⟩ := ih.mp rest
      subst nextEq
      refine ⟨⟨?_, distinct⟩, ⟨new, notAncestor, parent⟩, ?_⟩
      · intro repeated
        obtain ⟨other, mem, hashEq⟩ := mem_map.mp repeated
        exact (others other mem).1 (Finset.mem_insert.mpr (.inl hashEq))
      · intro other mem
        obtain ⟨otherNew, otherRest⟩ := others other mem
        exact ⟨fun seen => otherNew (Finset.mem_insert_of_mem seen), otherRest⟩
    · intro ⟨⟨notRepeated, distinct⟩, ⟨new, notAncestor, parent⟩, others⟩
      refine ⟨_, verifyUncle_eq_ok.mpr ⟨new, notAncestor, parent, rfl⟩, ?_⟩
      refine ih.mpr ⟨distinct, fun other mem => ?_⟩
      obtain ⟨otherNew, otherRest⟩ := others other mem
      refine ⟨?_, otherRest⟩
      rw [Finset.mem_insert, not_or]
      exact ⟨fun hashEq => notRepeated (mem_map.mpr ⟨other, mem, hashEq⟩), otherNew⟩

theorem verifyUncles_eq_ok_iff :
    engine.verifyUncles getBlock block = .ok () ↔
      block.uncles.length ≤ maxUncles ∧
        ∃ last, run (engine.verifyUncle block) (familyOf getBlock block)
          block.uncles = .ok last := by
  unfold verifyUncles
  rw [ite_error_eq_ok, not_lt]
  cases run (engine.verifyUncle block) (familyOf getBlock block) block.uncles with
  | error error => simp
  | ok last => simp

end Engine

/-- An uncle that is new to a block and its ancestors, and whose parent is one of them
but not the parent of the block. -/
structure Acceptable (engine : Engine) (block : FullBlock)
    (recent : List FullBlock) (uncle : Header) : Prop where
  notBlock : uncle.hash ≠ block.hash
  notAncestor : ∀ ancestor ∈ recent, uncle.hash ≠ ancestor.hash
  notUncle : ∀ ancestor ∈ recent, ∀ other ∈ ancestor.uncles, uncle.hash ≠ other.hash
  notSibling : uncle.parentHash ≠ block.parentHash
  verified :
    ∃ parent : FullBlock, (parent = block ∨ parent ∈ recent) ∧
      parent.hash = uncle.parentHash ∧
      engine.verifyHeader uncle parent.header .uncle true = .ok ()

namespace Engine

variable {engine : Engine} {getBlock : Hash → Nat → Option FullBlock} {block : FullBlock}
  {parent : Header} {withSeal : Bool}

theorem acceptable_of_verifyUncles (accepted : engine.verifyUncles getBlock block = .ok ()) :
    block.uncles.length ≤ maxUncles ∧ (block.uncles.map Header.hash).Nodup ∧
      ∀ uncle ∈ block.uncles, Acceptable engine block (recentAncestors getBlock block) uncle := by
  obtain ⟨few, ret⟩ := verifyUncles_eq_ok_iff.mp accepted
  obtain ⟨distinct, checked⟩ := run_verifyUncle_returns.mp ret
  refine ⟨few, distinct, fun uncle mem => ?_⟩
  obtain ⟨new, notFound, parent, parentFound, notSibling, verified⟩ := checked uncle mem
  rw [mem_uncles_familyOf, not_or] at new
  have notEntered : ¬ ((familyOf getBlock block).ancestors.lookup uncle.hash).isSome := by
    rw [notFound]
    exact Bool.false_ne_true
  rw [isSome_lookup_familyOf, not_or] at notEntered
  refine ⟨new.1, ?_, ?_, notSibling, ?_⟩
  · intro ancestor ancestorMem hashEq
    exact notEntered.2 ⟨ancestor, ancestorMem, hashEq.symm⟩
  · intro ancestor ancestorMem other otherMem hashEq
    exact new.2 ⟨ancestor, ancestorMem, other, otherMem, hashEq.symm⟩
  · rcases lookup_familyOf parentFound with ⟨isBlock, rfl⟩ | ⟨ancestor, ancestorMem, isParent, rfl⟩
    · exact ⟨block, .inl rfl, isBlock.symm, verified⟩
    · exact ⟨ancestor, .inr ancestorMem, isParent, verified⟩

theorem verifyUncles_of_acceptable
      (injective : ∀ left ∈ block :: recentAncestors getBlock block,
        ∀ right ∈ block :: recentAncestors getBlock block,
          left.hash = right.hash → left.header = right.header)
    (few : block.uncles.length ≤ maxUncles) (distinct : (block.uncles.map Header.hash).Nodup)
    (acceptable :
      ∀ uncle ∈ block.uncles, Acceptable engine block (recentAncestors getBlock block) uncle) :
    engine.verifyUncles getBlock block = .ok () := by
  refine verifyUncles_eq_ok_iff.mpr ⟨few, run_verifyUncle_returns.mpr ⟨distinct, ?_⟩⟩
  intro uncle mem
  obtain ⟨notBlock, notAncestor, notUncle, notSibling, parent, parentMem, isParent,
    verified⟩ := acceptable uncle mem
  have parentIn : parent ∈ block :: recentAncestors getBlock block := mem_cons.mpr parentMem
  refine ⟨?_, ?_, ?_⟩
  · rw [mem_uncles_familyOf, not_or]
    refine ⟨notBlock, ?_⟩
    intro ⟨ancestor, ancestorMem, other, otherMem, hashEq⟩
    exact notUncle ancestor ancestorMem other otherMem hashEq.symm
  · rw [← Option.not_isSome_iff_eq_none, isSome_lookup_familyOf, not_or]
    refine ⟨notBlock, ?_⟩
    intro ⟨ancestor, ancestorMem, hashEq⟩
    exact notAncestor ancestor ancestorMem hashEq.symm
  · have entered : ((familyOf getBlock block).ancestors.lookup uncle.parentHash).isSome := by
      rw [isSome_lookup_familyOf]
      rcases parentMem with rfl | parentMem
      · exact .inl isParent.symm
      · exact .inr ⟨parent, parentMem, isParent⟩
    obtain ⟨header, got⟩ := Option.isSome_iff_exists.mp entered
    refine ⟨header, got, notSibling, ?_⟩
    rcases lookup_familyOf got with ⟨isBlock, rfl⟩ | ⟨ancestor, ancestorMem, hashEq, rfl⟩
    · rwa [injective block mem_cons_self parent parentIn (isBlock.symm.trans isParent.symm)]
    · rwa [injective ancestor (mem_cons_of_mem _ ancestorMem) parent parentIn
        (hashEq.trans isParent.symm)]

theorem verifyHeader_uncle {time : Nat}
    (verified : engine.verifyHeader header parent (.block time) withSeal = .ok ())
    (inRange : time ≤ maxBig256) : engine.verifyHeader header parent .uncle withSeal = .ok () := by
  unfold verifyHeader at verified ⊢
  simp only [ite_error_eq_ok] at verified ⊢
  obtain ⟨extra, -, notFuture, rest⟩ := verified
  refine ⟨extra, ?_, Bool.false_ne_true, rest⟩
  have past : header.time ≤ time := by simpa [HeaderKind.isFuture] using notFuture
  intro tooLarge
  omega

theorem number_of_verifyHeader {kind : HeaderKind}
    (verified : engine.verifyHeader header parent kind withSeal = .ok ()) :
    header.number = parent.number + 1 := by
  unfold verifyHeader at verified
  simp only [ite_error_eq_ok] at verified
  omega

end Engine

/-- The reader returns the block it is asked for, and the block and the ones it returns
are numbered above their parents. -/
structure ReadsChain (getBlock : Hash → Nat → Option FullBlock) (block : FullBlock) :
    Prop where
  hash_eq : ∀ {hash num got}, getBlock hash num = some got → got.hash = hash
  numbered :
    ∀ {child parent num},
      child = block ∨ (∃ hash num, getBlock hash num = some child) →
        getBlock child.parentHash num = some parent → child.number = parent.number + 1

namespace ReadsChain

variable {engine : Engine} {getBlock : Hash → Nat → Option FullBlock}
  {block child ancestor : FullBlock}

theorem ancestorsFrom_number (reads : ReadsChain getBlock block)
    (isRead : child = block ∨ ∃ hash num, getBlock hash num = some child)
    (mem : ancestor ∈ ancestorsFrom getBlock count child.parentHash num) :
    child.number ≤ ancestor.number + count ∧
      (ancestor.hash = child.parentHash ∧ ancestor.number + 1 = child.number ∨
        ancestor.number + 1 < child.number) := by
  induction count generalizing child num with
  | zero => cases mem
  | succ count ih =>
    rw [ancestorsFrom] at mem
    cases got : getBlock child.parentHash num with
    | none =>
      rw [got] at mem
      cases mem
    | some parent =>
      rw [got] at mem
      have above := reads.numbered isRead got
      rcases mem_cons.mp mem with isParent | further
      · subst isParent
        exact ⟨by omega, .inl ⟨reads.hash_eq got, above.symm⟩⟩
      · obtain ⟨close, below⟩ := ih (.inr ⟨_, _, got⟩) further
        rcases below with ⟨-, next⟩ | below
        · exact ⟨by omega, .inr (by omega)⟩
        · exact ⟨by omega, .inr (by omega)⟩

theorem uncle_number (reads : ReadsChain getBlock block)
    (accepted : engine.verifyUncles getBlock block = .ok ()) (mem : uncle ∈ block.uncles)
    (acyclic : uncle.parentHash ≠ block.hash) :
    uncle.number < block.number ∧ block.number ≤ uncle.number + 6 := by
  obtain ⟨-, -, -, notSibling, parent, parentMem, isParent, verified⟩ :=
    (Engine.acceptable_of_verifyUncles accepted).2.2 uncle mem
  have above : uncle.number = parent.number + 1 := Engine.number_of_verifyHeader verified
  rcases parentMem with rfl | parentMem
  · exact absurd isParent.symm acyclic
  · obtain ⟨close, below⟩ := reads.ancestorsFrom_number (.inl rfl) parentMem
    rcases below with ⟨isFirst, -⟩ | below
    · exact absurd (isParent.symm.trans isFirst) notSibling
    · omega

end ReadsChain

end MoacVnode.Consensus.Ethash
