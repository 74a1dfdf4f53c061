import MoacVnode.Core.Types
import MoacVnode.Lib.Heap
import MoacVnode.Lib.Maps

/-!
# The price index of the transaction pool

`txPricedList` is a heap of the pool's transactions by gas price.  A transaction
that leaves the pool stays in the heap as a stale entry until it is popped or
the heap is rebuilt.  The map of all transactions, to which the source keeps a
pointer, is an argument here.
-/

namespace MoacVnode.Core

open Lib List
open Transaction (gasPrice)

abbrev TxMap := AList fun _ : Hash => Transaction

def containsTx (locals : Finset Address) (tx : Transaction) : Bool :=
  match tx.sender with
  | some addr => addr ∈ locals
  | none => false

structure TxPricedList where
  items : List Transaction := []
  stales : Int := 0

namespace TxPricedList

variable {tx : Transaction} {items : List Transaction} (list : TxPricedList)

def put (tx : Transaction) : TxPricedList := { list with items := Heap.push gasPrice list.items tx }

/-- Count a dropped transaction; rebuild the heap when a quarter is stale. -/
def removed (choice : Nat) (all : TxMap) : TxPricedList :=
  if list.stales + 1 ≤ (list.items.length / 4 : Nat) then { list with stales := list.stales + 1 }
  else
    { items := Heap.init gasPrice
        ((shuffle choice all.entries).map Sigma.snd)
      stales := 0 }

/-- The loop of `Cap`: what to drop, what to put back and the remaining heap. -/
def capLoop (all : TxMap) (threshold : Int) (locals : Finset Address) :
    Nat → TxPricedList → List Transaction × List Transaction × TxPricedList
  | 0, list => ([], [], list)
  | fuel + 1, list =>
    match Heap.pop gasPrice list.items with
    | (none, _) => ([], [], list)
    | (some tx, items) =>
      if (all.lookup tx.hash).isNone then capLoop all threshold locals fuel ⟨items, list.stales - 1⟩
      else if threshold ≤ tx.gasPrice then ([], [tx], ⟨items, list.stales⟩)
      else
        let rest := capLoop all threshold locals fuel ⟨items, list.stales⟩
        if containsTx locals tx then (rest.1, tx :: rest.2.1, rest.2.2)
        else (tx :: rest.1, rest.2)

def cap (all : TxMap) (threshold : Int) (locals : Finset Address) :
    List Transaction × TxPricedList :=
  let swept := capLoop all threshold locals list.items.length list
  (swept.1, swept.2.1.foldl put swept.2.2)

def dropStale (all : TxMap) : Nat → TxPricedList → TxPricedList
  | 0, list => list
  | fuel + 1, list =>
    match list.items with
    | [] => list
    | head :: _ =>
      if (all.lookup head.hash).isNone then
        dropStale all fuel ⟨(Heap.pop gasPrice list.items).2, list.stales - 1⟩
      else list

def underpriced (all : TxMap) (tx : Transaction) (locals : Finset Address) : Bool × TxPricedList :=
  if containsTx locals tx then (false, list)
  else
    let pruned := dropStale all list.items.length list
    match pruned.items with
    | [] => (false, pruned)
    | cheapest :: _ => (tx.gasPrice ≤ cheapest.gasPrice, pruned)

def discardLoop (all : TxMap) (locals : Finset Address) :
    Nat → Int → TxPricedList → List Transaction × List Transaction × TxPricedList
  | 0, _, list => ([], [], list)
  | fuel + 1, count, list =>
    if count ≤ 0 then ([], [], list)
    else
      match Heap.pop gasPrice list.items with
      | (none, _) => ([], [], list)
      | (some tx, items) =>
        if (all.lookup tx.hash).isNone then
          discardLoop all locals fuel count ⟨items, list.stales - 1⟩
        else if containsTx locals tx then
          let rest := discardLoop all locals fuel count ⟨items, list.stales⟩
          (rest.1, tx :: rest.2.1, rest.2.2)
        else
          let rest := discardLoop all locals fuel (count - 1) ⟨items, list.stales⟩
          (tx :: rest.1, rest.2)

def discard (all : TxMap) (count : Int) (locals : Finset Address) :
    List Transaction × TxPricedList :=
  let swept := discardLoop all locals list.items.length count list
  (swept.1, swept.2.1.foldl put swept.2.2)

variable {all : TxMap} {list rest : TxPricedList} {drop : List Transaction}

def live (all : TxMap) (tx : Transaction) : Bool := (all.lookup tx.hash).isSome

theorem live_eq_false (missing : (all.lookup tx.hash).isNone) : live all tx = false := by
  rw [live, Option.isNone_iff_eq_none.mp missing]
  rfl

theorem live_eq_true (got : ¬ (all.lookup tx.hash).isNone) : live all tx = true := by
  rw [live, Option.isSome_iff_ne_none]
  exact fun missing => got (Option.isNone_iff_eq_none.mpr missing)

/-- A sweep takes entries of the pool out of the heap, to be dropped, and stale
ones, which it counts. -/
structure Swept (all : TxMap) (list : TxPricedList) (drop : List Transaction)
    (rest : TxPricedList) : Prop where
  dropped : ∀ tx ∈ drop, live all tx = true
  entries : ∃ stale : List Transaction, (∀ tx ∈ stale, live all tx = false) ∧
    list.items.Perm (drop ++ (stale ++ rest.items)) ∧ rest.stales = list.stales - stale.length

theorem swept_refl (list : TxPricedList) : Swept all list [] list :=
  ⟨forall_mem_nil _, [], forall_mem_nil _, List.Perm.refl _, by simp⟩

theorem Swept.stale (perm : list.items.Perm (tx :: items)) (isStale : live all tx = false)
    (swept : Swept all ⟨items, list.stales - 1⟩ drop rest) : Swept all list drop rest := by
  obtain ⟨stale, areStale, itemsPerm, stales⟩ := swept.entries
  refine ⟨swept.dropped, tx :: stale, forall_mem_cons.mpr ⟨isStale, areStale⟩, ?_, ?_⟩
  · refine perm.trans ((itemsPerm.cons tx).trans ?_)
    exact perm_middle.symm
  · rw [stales, length_cons]
    push_cast
    omega

theorem Swept.pop (perm : list.items.Perm (tx :: items)) (isLive : live all tx = true)
    (swept : Swept all ⟨items, list.stales⟩ drop rest) : Swept all list (tx :: drop) rest := by
  obtain ⟨stale, areStale, itemsPerm, stales⟩ := swept.entries
  exact ⟨forall_mem_cons.mpr ⟨isLive, swept.dropped⟩, stale, areStale,
    perm.trans (itemsPerm.cons tx), stales⟩

theorem Swept.of_perm {taken : List Transaction} (swept : Swept all list drop rest)
    (perm : taken.Perm drop) : Swept all list taken rest := by
  obtain ⟨stale, areStale, itemsPerm, stales⟩ := swept.entries
  exact ⟨fun tx mem => swept.dropped tx (perm.mem_iff.mp mem), stale, areStale,
    itemsPerm.trans (perm.symm.append_right _), stales⟩

theorem foldl_put (list : TxPricedList) (save : List Transaction) :
    (save.foldl put list).items.Perm (save ++ list.items) ∧
      (save.foldl put list).stales = list.stales := by
  induction save generalizing list with
  | nil => exact ⟨List.Perm.refl _, rfl⟩
  | cons tx save ih =>
    obtain ⟨perm, stales⟩ := ih (list.put tx)
    refine ⟨perm.trans ?_, stales⟩
    exact ((Heap.push_perm gasPrice list.items tx).append_left save).trans perm_middle

theorem Swept.save {save : List Transaction} (swept : Swept all list (drop ++ save) rest) :
    Swept all list drop (save.foldl put rest) := by
  obtain ⟨stale, areStale, itemsPerm, stales⟩ := swept.entries
  obtain ⟨putPerm, putStales⟩ := foldl_put rest save
  refine ⟨(forall_mem_append.mp swept.dropped).1, stale, areStale,
    itemsPerm.trans ?_, putStales.trans stales⟩
  rw [append_assoc]
  refine List.Perm.append_left drop ?_
  have moved : (save ++ (stale ++ rest.items)).Perm (stale ++ (save ++ rest.items)) := by
    rw [← append_assoc, ← append_assoc]
    exact perm_append_comm.append_right rest.items
  exact moved.trans (putPerm.symm.append_left stale)

theorem Swept.trans {mid : TxPricedList} {later : List Transaction}
    (first : Swept all list drop mid) (second : Swept all mid later rest) :
    Swept all list (drop ++ later) rest := by
  obtain ⟨stale, areStale, itemsPerm, stales⟩ := first.entries
  obtain ⟨laterStale, areLaterStale, laterPerm, laterStales⟩ := second.entries
  refine ⟨forall_mem_append.mpr ⟨first.dropped, second.dropped⟩, stale ++ laterStale,
    forall_mem_append.mpr ⟨areStale, areLaterStale⟩, itemsPerm.trans ?_, ?_⟩
  · rw [append_assoc]
    refine List.Perm.append_left drop ((laterPerm.append_left stale).trans ?_)
    simp only [← append_assoc]
    exact (perm_append_comm.append_right laterStale).append_right rest.items
  · rw [laterStales, stales, length_append]
    push_cast
    omega

theorem pop_eq (items : List Transaction) :
    Heap.pop gasPrice items = (none, []) ∧ items = [] ∨
      ∃ tx popped, Heap.pop gasPrice items = (some tx, popped) ∧ items.Perm (tx :: popped) := by
  cases items with
  | nil => exact .inl ⟨rfl, rfl⟩
  | cons root items =>
    obtain ⟨isRoot, perm⟩ := Heap.pop_perm gasPrice (show (root :: items)[0]? = some root from rfl)
    exact .inr ⟨root, _, Prod.ext isRoot rfl, perm⟩

theorem perm_of_pop {popped : List Transaction}
    (pops : Heap.pop gasPrice items = (some tx, popped)) : items.Perm (tx :: popped) := by
  rcases pop_eq items with ⟨nothing, -⟩ | ⟨first, others, isFirst, perm⟩
  · cases nothing.symm.trans pops
  · cases isFirst.symm.trans pops
    exact perm

section

variable (all) (locals : Finset Address)

/-- A loop pops the heap, and sorts the entries of the pool into those to drop and those to put
back. -/
inductive Sweeps : TxPricedList → List Transaction × List Transaction × TxPricedList → Prop where
  | done (list : _) : Sweeps list ([], [], list)
  | stale {tx items list swept : _} (pops : Heap.pop gasPrice list.items = (some tx, items))
    (isStale : (all.lookup tx.hash).isNone) (sweeps : Sweeps ⟨items, list.stales - 1⟩ swept) :
    Sweeps list swept
  | save {tx items list swept : _} (pops : Heap.pop gasPrice list.items = (some tx, items))
    (notStale : ¬ (all.lookup tx.hash).isNone) (sweeps : Sweeps ⟨items, list.stales⟩ swept) :
    Sweeps list (swept.1, tx :: swept.2.1, swept.2.2)
  | drop {tx items list swept : _} (pops : Heap.pop gasPrice list.items = (some tx, items))
    (notStale : ¬ (all.lookup tx.hash).isNone) (remote : ¬ containsTx locals tx)
    (sweeps : Sweeps ⟨items, list.stales⟩ swept) : Sweeps list (tx :: swept.1, swept.2)

end

variable {locals : Finset Address} {fuel : Nat}
  {res : List Transaction × List Transaction × TxPricedList}

theorem Sweeps.swept (sweeps : Sweeps all locals list res) :
    Swept all list (res.1 ++ res.2.1) res.2.2 := by
  induction sweeps with
  | done list => exact swept_refl list
  | stale pops isStale _ ih => exact ih.stale (perm_of_pop pops) (live_eq_false isStale)
  | save pops notStale _ ih =>
    exact (ih.pop (perm_of_pop pops) (live_eq_true notStale)).of_perm perm_middle
  | drop pops notStale _ _ ih => exact ih.pop (perm_of_pop pops) (live_eq_true notStale)

theorem capLoop_sweeps {threshold : Int} :
    Sweeps all locals list (capLoop all threshold locals fuel list) := by
  induction fuel generalizing list with
  | zero => exact .done list
  | succ fuel ih =>
    rw [capLoop]
    split
    · exact .done list
    · split
      · exact .stale ‹_› ‹_› ih
      · split
        · exact .save ‹_› ‹_› (.done _)
        · split
          · exact .save ‹_› ‹_› ih
          · exact .drop ‹_› ‹_› ‹_› ih

theorem cap_swept (list : TxPricedList) (threshold : Int) (locals : Finset Address) :
    Swept all list (list.cap all threshold locals).1 (list.cap all threshold locals).2 :=
  capLoop_sweeps.swept.save

theorem discardLoop_sweeps {count : Int} :
    Sweeps all locals list (discardLoop all locals fuel count list) := by
  induction fuel generalizing list count with
  | zero => exact .done list
  | succ fuel ih =>
    rw [discardLoop]
    split
    · exact .done list
    · split
      · exact .done list
      · split
        · exact .stale ‹_› ‹_› ih
        · split
          · exact .save ‹_› ‹_› ih
          · exact .drop ‹_› ‹_› ‹_› ih

theorem dropStale_sweeps : Sweeps all locals list ([], [], dropStale all fuel list) := by
  induction fuel generalizing list with
  | zero => exact .done list
  | succ fuel ih =>
    rw [dropStale]
    split
    · exact .done list
    · rename_i head tail isHead
      split
      · rename_i isStale
        have pops := (Heap.pop_perm gasPrice
          (show list.items[0]? = some head by rw [isHead]; rfl)).1
        exact .stale (Prod.ext pops rfl) isStale ih
      · exact .done list

theorem underpriced_swept (list : TxPricedList) (tx : Transaction) (locals : Finset Address) :
    Swept all list [] (list.underpriced all tx locals).2 := by
  have pruned := (@dropStale_sweeps all list locals list.items.length).swept
  unfold underpriced
  split
  · exact swept_refl list
  · dsimp only
    split <;> exact pruned

end TxPricedList

end MoacVnode.Core
