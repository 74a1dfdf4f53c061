import MoacVnode.Core.TxList

/-!
# What a transaction pool holds

The abstract view of a pool: the transaction that each of its two places has for
a sender and a nonce, and the index of all transactions by hash.  While an
operation moves transactions, some are loose: taken out of a place and not yet
put into another or dropped.  `Placed` says that no sender and nonce is used
twice, that all these transactions are good in a sense that the user of the
predicate chooses and, at the higher levels of tracking, that the index has all
of them or exactly them.
-/

namespace MoacVnode.Core

open Function (update update_apply)
open List

/-- `from, _ := types.Sender(signer, tx)`: the zero address if there is none. -/
def Transaction.owner (tx : Transaction) : Address := tx.sender.getD 0

inductive Place where
  | pending
  | queue
  deriving DecidableEq, Repr

structure Contents where
  held : Place → Address → Nat → Option Transaction
  all : Hash → Option Transaction

namespace Contents

variable {place other : Place}

variable (contents : Contents)

def setList (place : Place) (addr : Address) (list : Nat → Option Transaction) : Contents :=
  { contents with
    held := fun spot owner =>
      if spot = place ∧ owner = addr then list else contents.held spot owner }

def put (place : Place) (tx : Transaction) : Contents :=
  contents.setList place tx.owner (update (contents.held place tx.owner) tx.nonce (some tx))

def setAll (hash : Hash) (tx : Option Transaction) : Contents :=
  { contents with all := update contents.all hash tx }

@[simp]
theorem held_setList_self (place : Place) (addr : Address) (list : Nat → Option Transaction) :
    (contents.setList place addr list).held place addr = list :=
  if_pos ⟨rfl, rfl⟩

theorem eq_setList {contents other : Contents} {addr : Address} {list : Nat → Option Transaction}
    (atPlace : other.held place = update (contents.held place) addr list)
    (elsewhere : ∀ spot, spot ≠ place → other.held spot = contents.held spot)
    (sameAll : other.all = contents.all) : other = contents.setList place addr list := by
  obtain ⟨held, all⟩ := other
  cases sameAll
  dsimp only at atPlace elsewhere
  refine congrArg (Contents.mk · contents.all) (funext fun spot => funext fun owner => ?_)
  by_cases same : spot = place
  · subst same
    rw [atPlace, update_apply]
    exact if_congr (and_iff_right rfl).symm rfl rfl
  · rw [elsewhere spot same, if_neg fun both => same both.1]

theorem setList_setList (place : Place) (addr : Address) (prior later : Nat → Option Transaction) :
    (contents.setList place addr prior).setList place addr later =
      contents.setList place addr later := by
  refine congrArg (Contents.mk · contents.all) (funext fun other => funext fun owner => ?_)
  by_cases same : other = place ∧ owner = addr
  · rw [if_pos same, if_pos same]
  · rw [if_neg same, if_neg same]
    exact if_neg same

theorem setList_self (place : Place) (addr : Address) :
    contents.setList place addr (contents.held place addr) = contents :=
  (eq_setList (Function.update_eq_self addr _).symm (fun _ _ => rfl) rfl).symm

theorem held_put_of_ne (ne : other ≠ place) (tx : Transaction) :
    (contents.put place tx).held other = contents.held other :=
  funext fun _ => if_neg fun same => ne same.1

theorem put_setAll (place : Place) (tx : Transaction) (hash : Hash) (val : Option Transaction) :
    (contents.setAll hash val).put place tx = (contents.put place tx).setAll hash val :=
  rfl

theorem all_setAll (hash : Hash) (tx : Option Transaction) (key : Hash) :
    (contents.setAll hash tx).all key = if key = hash then tx else contents.all key :=
  update_apply contents.all hash tx key

end Contents

/-- What is known about the index: nothing, that it has the transactions that
are held or loose, or that it has no others. -/
inductive Tracking where
  | untracked
  | recorded
  | exact

def Tracking.Known : Tracking → Prop
  | .untracked => False
  | _ => True

def Tracking.Complete : Tracking → Prop
  | .exact => True
  | _ => False

theorem Tracking.Complete.known {level : Tracking} (full : level.Complete) : level.Known := by
  cases level with
  | untracked => cases full
  | recorded => trivial
  | exact => trivial

def Contents.Present (contents : Contents) (loose : List Transaction) (tx : Transaction) : Prop :=
  (∃ place, contents.held place tx.owner tx.nonce = some tx) ∨ tx ∈ loose

/-- Every sender and nonce is used at most once, by a transaction that is held or
loose. -/
structure Placed (level : Tracking) (good : Transaction → Prop) (contents : Contents)
    (loose : List Transaction) : Prop where
  slot : ∀ {place addr nonce tx}, contents.held place addr nonce = some tx →
    tx.owner = addr ∧ tx.nonce = nonce
  goodHeld : ∀ {place addr nonce tx}, contents.held place addr nonce = some tx → good tx
  goodLoose : ∀ tx ∈ loose, good tx
  apart : ∀ {addr nonce}, contents.held .pending addr nonce = none ∨
    contents.held .queue addr nonce = none
  free : ∀ tx ∈ loose, ∀ place, contents.held place tx.owner tx.nonce = none
  distinct : loose.Pairwise fun left right => left.owner = right.owner → left.nonce ≠ right.nonce
  keyed : level.Known → ∀ {hash tx}, contents.all hash = some tx → tx.hash = hash
  signed : level.Known → ∀ {hash tx}, contents.all hash = some tx → tx.sender.isSome
  recorded : level.Known → ∀ {tx}, contents.Present loose tx → contents.all tx.hash = some tx
  only : level.Complete → ∀ {hash tx}, contents.all hash = some tx → contents.Present loose tx

namespace Placed

variable {level : Tracking} {good : Transaction → Prop} {contents : Contents}
  {loose removed : List Transaction} {tx : Transaction} {place : Place} {addr : Address}
  {after : Nat → Option Transaction} {other : Transaction} {hash : Hash}

open RawSortedMap (Removes)

section

variable (placed : Placed level good contents loose)

include placed

theorem apart_of_ne {place other : Place} {nonce : Nat} (ne : other ≠ place)
    (held : contents.held place addr nonce ≠ none) : contents.held other addr nonce = none := by
  have apart := @placed.apart addr nonce
  cases place <;> cases other <;> first | contradiction | tauto

theorem forget {kept : List Transaction} (sublist : kept.Sublist loose)
    (all : level.Complete → kept = loose) : Placed level good contents kept :=
  ⟨placed.slot, placed.goodHeld,
    fun tx mem => placed.goodLoose tx (sublist.subset mem), placed.apart,
    fun tx mem => placed.free tx (sublist.subset mem),
    placed.distinct.sublist sublist, placed.keyed, placed.signed,
    fun known _ present => placed.recorded known (present.imp_right (sublist.subset ·)),
    fun full _ _ got => by
      rw [all full]
      exact placed.only full got⟩

theorem of_held_eq (unknown : ¬ level.Known) {other : Contents}
    (sameHeld : other.held = contents.held) : Placed level good other loose := by
  refine ⟨?_, ?_, placed.goodLoose, ?_, ?_, placed.distinct,
    fun known => absurd known unknown, fun known => absurd known unknown,
    fun known => absurd known unknown, fun full => absurd full.known unknown⟩
  · rw [sameHeld]
    exact placed.slot
  · rw [sameHeld]
    exact placed.goodHeld
  · rw [sameHeld]
    exact placed.apart
  · rw [sameHeld]
    exact placed.free

end

theorem held_setList_of_removes (removes : Removes (contents.held place addr) after removed)
    (other : Place) (owner : Address) (nonce : Nat) :
    (contents.setList place addr after).held other owner nonce = contents.held other owner nonce ∨
      (contents.setList place addr after).held other owner nonce = none ∧
        other = place ∧ owner = addr ∧ nonce ∈ removed.map Transaction.nonce := by
  simp only [Contents.setList]
  split
  · rename_i same
    obtain ⟨rfl, rfl⟩ := same
    rw [removes.get_eq]
    split
    · next mem => exact .inr ⟨rfl, rfl, rfl, mem⟩
    · exact .inl rfl
  · exact .inl rfl

theorem present_take (placed : Placed level good contents loose)
    (removes : Removes (contents.held place addr) after removed) :
    (contents.setList place addr after).Present (removed ++ loose) tx ↔
      contents.Present loose tx := by
  have cases_held := held_setList_of_removes removes
  constructor
  · rintro (⟨other, held⟩ | mem)
    · rcases cases_held other tx.owner tx.nonce with same | gone
      · exact .inl ⟨other, same.symm.trans held⟩
      · cases gone.1.symm.trans held
    · rcases mem_append.mp mem with inRemoved | inLoose
      · have held := removes.held tx inRemoved
        refine .inl ⟨place, ?_⟩
        rw [(placed.slot held).1]
        exact held
      · exact .inr inLoose
  · rintro (⟨other, held⟩ | inLoose)
    · rcases cases_held other tx.owner tx.nonce with same | ⟨-, rfl, sameOwner, nonceMem⟩
      · exact .inl ⟨other, same.trans held⟩
      · rw [sameOwner] at held
        have gone : after tx.nonce = none := by rw [removes.get_eq, if_pos nonceMem]
        exact .inr (mem_append_left _ (removes.mem_iff.mpr ⟨held, gone⟩))
    · exact .inr (mem_append_right _ inLoose)

theorem take (placed : Placed level good contents loose)
    (removes : Removes (contents.held place addr) after removed) :
    Placed level good (contents.setList place addr after) (removed ++ loose) := by
  have cases_held := held_setList_of_removes removes
  have of_held {other owner nonce tx}
      (held : (contents.setList place addr after).held other owner nonce = some tx) :
      contents.held other owner nonce = some tx := by
    rcases cases_held other owner nonce with same | gone
    · rwa [same] at held
    · cases gone.1.symm.trans held
  have of_none {other owner nonce} (nothing : contents.held other owner nonce = none) :
      (contents.setList place addr after).held other owner nonce = none := by
    rcases cases_held other owner nonce with same | gone
    · rwa [same]
    · exact gone.1
  have removedOwner : ∀ tx ∈ removed, tx.owner = addr := fun tx mem =>
    (placed.slot (removes.held tx mem)).1
  refine ⟨fun held => placed.slot (of_held held), fun held => placed.goodHeld (of_held held),
    forall_mem_append.mpr ⟨fun tx mem => placed.goodHeld (removes.held tx mem), placed.goodLoose⟩,
    fun {owner nonce} => placed.apart.imp of_none of_none, ?_, ?_, placed.keyed,
    placed.signed,
    fun known _ present => placed.recorded known ((placed.present_take removes).mp present),
    fun full _ _ got => (placed.present_take removes).mpr (placed.only full got)⟩
  · refine forall_mem_append.mpr ⟨fun tx mem other => ?_,
      fun tx mem other => of_none (placed.free tx mem other)⟩
    rw [removedOwner tx mem]
    by_cases atPlace : other = place
    · rw [atPlace, Contents.held_setList_self]
      exact removes.gone mem
    · apply of_none
      apply placed.apart_of_ne atPlace
      rw [removes.held tx mem]
      exact Option.some_ne_none tx
  · refine pairwise_append.mpr ⟨?_, placed.distinct, ?_⟩
    · apply (pairwise_map.mp removes.once).imp
      intro left right differ _
      exact differ
    · intro left leftMem right rightMem sameOwner sameNonce
      have rightFree := placed.free right rightMem place
      rw [← sameOwner, ← sameNonce, removedOwner left leftMem,
        removes.held left leftMem] at rightFree
      cases rightFree

theorem held_put (contents : Contents) (place other : Place) (tx : Transaction)
    (addr : Address) (nonce : Nat) :
    (contents.put place tx).held other addr nonce =
      if other = place ∧ addr = tx.owner ∧ nonce = tx.nonce then some tx
      else contents.held other addr nonce := by
  simp only [Contents.put, Contents.setList]
  by_cases same : other = place ∧ addr = tx.owner
  · obtain ⟨rfl, rfl⟩ := same
    by_cases atNonce : nonce = tx.nonce
    · simp [atNonce]
    · simp [atNonce]
  · rw [if_neg same, if_neg fun all => same ⟨all.1, all.2.1⟩]

theorem present_put (placed : Placed level good contents (tx :: loose)) (place : Place) :
    (contents.put place tx).Present loose other ↔ contents.Present (tx :: loose) other := by
  have txFree := placed.free tx mem_cons_self
  constructor
  · rintro (⟨spot, held⟩ | mem)
    · rw [held_put] at held
      split at held
      · cases held
        exact .inr mem_cons_self
      · exact .inl ⟨spot, held⟩
    · exact .inr (mem_cons_of_mem tx mem)
  · rintro (⟨spot, held⟩ | mem)
    · refine .inl ⟨spot, ?_⟩
      rw [held_put, if_neg]
      · exact held
      · rintro ⟨-, sameOwner, sameNonce⟩
        rw [sameOwner, sameNonce, txFree] at held
        cases held
    · rcases mem_cons.mp mem with rfl | mem
      · exact .inl ⟨place, by rw [held_put, if_pos ⟨rfl, rfl, rfl⟩]⟩
      · exact .inr mem

theorem put (placed : Placed level good contents (tx :: loose)) (place : Place) :
    Placed level good (contents.put place tx) loose := by
  have txFree := placed.free tx mem_cons_self
  obtain ⟨txDistinct, restDistinct⟩ := pairwise_cons.mp placed.distinct
  obtain ⟨txGood, restGood⟩ := forall_mem_cons.mp placed.goodLoose
  refine ⟨?_, ?_, restGood, ?_, ?_, restDistinct, placed.keyed, placed.signed,
    fun known _ present => placed.recorded known ((placed.present_put place).mp present),
    fun full _ _ got => (placed.present_put place).mpr (placed.only full got)⟩
  · intro other addr nonce held heldAt
    rw [held_put] at heldAt
    split at heldAt
    · rename_i same
      cases heldAt
      exact ⟨same.2.1.symm, same.2.2.symm⟩
    · exact placed.slot heldAt
  · intro other addr nonce held heldAt
    rw [held_put] at heldAt
    split at heldAt
    · cases heldAt
      exact txGood
    · exact placed.goodHeld heldAt
  · intro addr nonce
    rw [held_put, held_put]
    by_cases atTx : addr = tx.owner ∧ nonce = tx.nonce
    · obtain ⟨rfl, rfl⟩ := atTx
      cases place <;> simp [txFree]
    · rw [if_neg fun all => atTx all.2, if_neg fun all => atTx all.2]
      exact placed.apart
  · intro other mem spot
    rw [held_put, if_neg]
    · exact placed.free other (mem_cons_of_mem tx mem) spot
    · rintro ⟨-, sameOwner, sameNonce⟩
      exact txDistinct other mem sameOwner.symm sameNonce.symm

theorem all_setAll_none {hash key : Hash} (got : (contents.setAll hash none).all key = some other) :
    key ≠ hash ∧ contents.all key = some other := by
  rw [Contents.all_setAll] at got
  split at got
  · cases got
  · next ne => exact ⟨ne, got⟩

theorem erase (placed : Placed level good contents loose)
    (indexed : level.Known → contents.all hash = some tx)
    (absent : level.Known → ¬ contents.Present loose tx) :
    Placed level good (contents.setAll hash none) loose := by
  refine ⟨placed.slot, placed.goodHeld, placed.goodLoose, placed.apart, placed.free,
    placed.distinct, fun known _ _ got => placed.keyed known (all_setAll_none got).2,
    fun known _ _ got => placed.signed known (all_setAll_none got).2,
    fun known other present => ?_,
    fun full _ _ got => placed.only full (all_setAll_none got).2⟩
  have got := placed.recorded known present
  rw [Contents.all_setAll, if_neg]
  · exact got
  · intro hashEq
    rw [hashEq, indexed known] at got
    cases got
    exact absent known present

theorem drop (placed : Placed level good contents (tx :: loose))
    (hashEq : level.Known → hash = tx.hash) :
    Placed level good (contents.setAll hash none) loose := by
  obtain ⟨txDistinct, restDistinct⟩ := pairwise_cons.mp placed.distinct
  have absent : ¬ contents.Present loose tx := by
    rintro (⟨place, held⟩ | mem)
    · cases (placed.free tx mem_cons_self place).symm.trans held
    · exact txDistinct tx mem rfl rfl
  have recordedTx (known : level.Known) : contents.all hash = some tx := by
    rw [hashEq known]
    exact placed.recorded known (.inr mem_cons_self)
  refine ⟨placed.slot, placed.goodHeld,
    fun other mem => placed.goodLoose other (mem_cons_of_mem tx mem),
    placed.apart, fun other mem => placed.free other (mem_cons_of_mem tx mem),
    restDistinct, fun known _ _ got => placed.keyed known (all_setAll_none got).2,
    fun known _ _ got => placed.signed known (all_setAll_none got).2,
    fun known other present => ?_, fun full key other foundAfter => ?_⟩
  · have got := placed.recorded known (present.imp_right (mem_cons_of_mem tx))
    rw [Contents.all_setAll, if_neg]
    · exact got
    · intro atHash
      rw [atHash, recordedTx known] at got
      cases got
      exact absent present
  · obtain ⟨ne, got⟩ := all_setAll_none foundAfter
    rcases placed.only full got with held | mem
    · exact .inl held
    · rcases mem_cons.mp mem with rfl | inLoose
      · have sameKey := placed.keyed full.known got
        exact absurd (sameKey.symm.trans (hashEq full.known).symm) ne
      · exact .inr inLoose

theorem removeSlot (placed : Placed level good contents []) {followers : List Transaction}
    (removes : Removes (contents.held place tx.owner) after ((contents.held place tx.owner
      tx.nonce).toList ++ followers)) (indexed : level.Known → contents.all hash = some tx)
    (elsewhere : ∀ other, other ≠ place → contents.held other tx.owner tx.nonce ≠ some tx)
    (isThere : level.Complete → contents.held place tx.owner tx.nonce = some tx) :
    Placed level good ((contents.setAll hash none).setList place tx.owner after) followers := by
  have taken := placed.take removes
  rw [append_nil] at taken
  by_cases atPlace : contents.held place tx.owner tx.nonce = some tx
  · rw [atPlace] at taken
    apply taken.drop
    intro known
    exact (placed.keyed known (indexed known)).symm
  · have incomplete : ¬ level.Complete := fun full => atPlace (isThere full)
    have kept := taken.forget (sublist_append_right _ followers) fun full => absurd full incomplete
    refine kept.erase indexed fun known present => ?_
    have before := (placed.present_take removes).mp
      (present.imp_right (mem_append_left [] <| mem_append_right _ ·))
    rcases before with ⟨other, held⟩ | mem
    · by_cases same : other = place
      · rw [same] at held
        exact atPlace held
      · exact elsewhere other same held
    · cases mem

theorem record (placed : Placed level good contents (tx :: loose)) :
    Placed level good (contents.setAll tx.hash (some tx)) (tx :: loose) := by
  by_cases known : level.Known
  · have got := placed.recorded known (.inr mem_cons_self)
    rwa [show contents.setAll tx.hash (some tx) = contents from
      congrArg (Contents.mk contents.held) (Function.update_eq_self_iff.mpr got.symm)]
  · exact placed.of_held_eq known rfl

theorem accept (placed : Placed level good contents [])
    (txFree : ∀ place, contents.held place tx.owner tx.nonce = none) (isGood : good tx)
    (new : level.Known → hash = tx.hash ∧ contents.all hash = none ∧ tx.sender.isSome) :
    Placed level good (contents.setAll hash (some tx)) [tx] := by
  have of_all {key other} (got : (contents.setAll hash (some tx)).all key = some other) :
      key = hash ∧ other = tx ∨ key ≠ hash ∧ contents.all key = some other := by
    rw [Contents.all_setAll] at got
    split at got
    · next same => exact .inl ⟨same, (Option.some_inj.mp got).symm⟩
    · next ne => exact .inr ⟨ne, got⟩
  refine ⟨placed.slot, placed.goodHeld, forall_mem_singleton.mpr isGood,
    placed.apart, forall_mem_singleton.mpr txFree, pairwise_singleton _ _,
    ?_, ?_, ?_, ?_⟩
  · intro known key other got
    rcases of_all got with ⟨rfl, rfl⟩ | ⟨-, before⟩
    · exact (new known).1.symm
    · exact placed.keyed known before
  · intro known key other got
    rcases of_all got with ⟨rfl, rfl⟩ | ⟨-, before⟩
    · exact (new known).2.2
    · exact placed.signed known before
  · intro known other present
    obtain ⟨rfl, absent, -⟩ := new known
    rcases present with held | mem
    · have before := placed.recorded known (.inl held)
      rw [Contents.all_setAll, if_neg]
      · exact before
      · intro hashEq
        rw [hashEq, absent] at before
        cases before
    · rw [mem_singleton.mp mem, Contents.all_setAll, if_pos rfl]
  · intro full key other got
    rcases of_all got with ⟨-, rfl⟩ | ⟨-, before⟩
    · exact .inr mem_cons_self
    · exact .inl ((placed.only full before).resolve_right not_mem_nil)

theorem replace (placed : Placed level good contents []) {old : Transaction}
    (occupied : contents.held place tx.owner tx.nonce = some old) (isGood : good tx)
    (new : level.Known → hash = tx.hash ∧ contents.all hash = none ∧ tx.sender.isSome) :
    Placed level good
      (((contents.put place tx).setAll old.hash none).setAll hash (some tx)) [] := by
  have oldNonce := (placed.slot occupied).2
  have removes : Removes (contents.held place tx.owner)
      (update (contents.held place tx.owner) tx.nonce none) [old] := by
    refine ⟨forall_mem_singleton.mpr (by rwa [oldNonce]), nodup_singleton _, fun nonce => ?_⟩
    rw [update_apply, map_singleton, oldNonce]
    exact if_congr mem_singleton.symm rfl rfl
  have dropped := (placed.take removes).drop fun _ => rfl
  have slotFree (other : Place) : (contents.setList place tx.owner
        (update (contents.held place tx.owner) tx.nonce none)).held other
          tx.owner tx.nonce = none := by
    by_cases atPlace : other = place
    · rw [atPlace, Contents.held_setList_self, Function.update_self]
    · refine (congrFun (if_neg (mt And.left atPlace)) _).trans ?_
      exact placed.apart_of_ne atPlace (occupied ▸ Option.some_ne_none old)
  have admitted := dropped.accept slotFree isGood fun known => by
    obtain ⟨hashEq, absent, signed⟩ := new known
    refine ⟨hashEq, ?_, signed⟩
    rw [Contents.all_setAll]
    split
    · rfl
    · exact absent
  have whole := admitted.put place
  rwa [Contents.put_setAll, Contents.put_setAll, Contents.put, Contents.held_setList_self,
    Contents.setList_setList, Function.update_idem] at whole

end Placed

end MoacVnode.Core
