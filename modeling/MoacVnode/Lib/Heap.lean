import Mathlib.Tactic

/-!
# Binary heaps in a list

The min-heap of a slice, with the two sifting loops and the operations built on them.  Elements are
compared by a key.
-/

namespace MoacVnode.Lib.Heap

universe u v

open List Nat
open List.Perm (refl)

variable {α : Type u} {κ : Type v} [LinearOrder κ] (key : α → κ) {items sifted : List α}
  {i j k fuel bound p c q low : Nat} {root item : α}

def swap (items : List α) (i j : Nat) : List α :=
  match items[i]?, items[j]? with
  | some x, some y => (items.set i y).set j x
  | _, _ => items

theorem swap_eq (iLt : i < items.length) (jLt : j < items.length) :
    swap items i j = (items.set i items[j]).set j items[i] := by
  unfold swap
  rw [List.getElem?_eq_getElem iLt, List.getElem?_eq_getElem jLt]

theorem swap_perm (items : List α) (i j : Nat) : (swap items i j).Perm items := by
  by_cases iLt : i < items.length
  · by_cases jLt : j < items.length
    · rw [swap_eq iLt jLt]
      exact set_set_perm iLt jLt
    · unfold swap
      rw [List.getElem?_eq_none (Nat.not_lt.mp jLt)]
      split <;> first | exact refl _ | contradiction
  · unfold swap
    rw [List.getElem?_eq_none (Nat.not_lt.mp iLt)]

theorem length_swap (items : List α) (i j : Nat) : (swap items i j).length = items.length :=
  (swap_perm items i j).length_eq

section

variable (iLt : i < items.length)

include iLt

section

variable (jLt : j < items.length)

include jLt

theorem getElem?_swap (k : Nat) :
    (swap items i j)[k]? = if k = j then items[i]? else if k = i then items[j]? else items[k]? := by
  rw [swap_eq iLt jLt, List.getElem?_set, length_set, List.getElem?_set]
  by_cases atJ : k = j
  · subst atJ
    rw [if_pos rfl, if_pos rfl, if_pos jLt, List.getElem?_eq_getElem iLt]
  · rw [if_neg (Ne.symm atJ), if_neg atJ]
    by_cases atI : k = i
    · subst atI
      rw [if_pos rfl, if_pos rfl, if_pos iLt, List.getElem?_eq_getElem jLt]
    · rw [if_neg (Ne.symm atI), if_neg atI]

theorem getElem?_swap_left : (swap items i j)[i]? = items[j]? := by
  rw [getElem?_swap iLt jLt, if_pos rfl]
  by_cases same : i = j
  · rw [if_pos same, same]
  · rw [if_neg same]

theorem getElem?_swap_right : (swap items i j)[j]? = items[i]? := by
  rw [getElem?_swap iLt jLt, if_pos rfl]

theorem getElem?_swap_of_ne (notI : k ≠ i) (notJ : k ≠ j) : (swap items i j)[k]? = items[k]? := by
  rw [getElem?_swap iLt jLt, if_neg notJ, if_neg notI]

end

end

def less (items : List α) (i j : Nat) : Bool :=
  match items[i]?, items[j]? with
  | some x, some y => decide (key x < key y)
  | _, _ => false

def up : Nat → List α → Nat → List α
  | 0, items, _ => items
  | fuel + 1, items, j =>
    let i := (j - 1) / 2
    if i = j ∨ less key items j i = false then items
    else up fuel (swap items i j) i

def child (items : List α) (i bound : Nat) : Nat :=
  if 2 * i + 2 < bound ∧ less key items (2 * i + 2) (2 * i + 1) then 2 * i + 2
  else 2 * i + 1

/-- Move an element down until its children are not smaller; also say where it
ends. -/
def down : Nat → List α → Nat → Nat → List α × Nat
  | 0, items, i, _ => (items, i)
  | fuel + 1, items, i, bound =>
    if bound ≤ 2 * i + 1 then (items, i)
    else
      let j := child key items i bound
      if less key items j i = false then (items, i)
      else down fuel (swap items i j) j bound

def initFrom : Nat → List α → List α
  | 0, items => items
  | start + 1, items => initFrom start (down key items.length items start items.length).1

variable (items)

def init : List α := initFrom key (items.length / 2) items

def push (item : α) : List α := up key (items.length + 1) (items ++ [item]) items.length

/-- Take the root out; the last element replaces it and sifts down. -/
def pop : Option α × List α :=
  let last := items.length - 1
  let sifted := (down key items.length (swap items 0 last) 0 last).1
  (sifted.getLast?, sifted.dropLast)

/-- Take element `i` out; the last element replaces it and sifts either way. -/
def remove (i : Nat) : Option α × List α :=
  let last := items.length - 1
  let sifted :=
    if last = i then items
    else
      let lowered := down key items.length (swap items i last) i last
      if lowered.2 > i then lowered.1 else up key items.length lowered.1 i
  (sifted.getLast?, sifted.dropLast)

theorem up_perm (fuel : Nat) (items : List α) (j : Nat) : (up key fuel items j).Perm items := by
  induction fuel generalizing items j with
  | zero => exact refl _
  | succ fuel ih =>
    unfold up
    dsimp only
    split
    · exact refl _
    · exact (ih _ _).trans (swap_perm items _ _)

theorem down_perm (fuel : Nat) (items : List α) (i bound : Nat) :
    (down key fuel items i bound).1.Perm items := by
  induction fuel generalizing items i with
  | zero => exact refl _
  | succ fuel ih =>
    unfold down
    dsimp only
    split
    · exact refl _
    · split
      · exact refl _
      · exact (ih _ _).trans (swap_perm items _ _)

theorem initFrom_perm (start : Nat) (items : List α) : (initFrom key start items).Perm items := by
  induction start generalizing items with
  | zero => exact refl _
  | succ start ih => exact (ih _).trans (down_perm key _ items start _)

theorem init_perm : (init key items).Perm items := initFrom_perm key _ items

theorem push_perm (item : α) : (push key items item).Perm (item :: items) :=
  (up_perm key _ _ _).trans (perm_append_singleton item items)

variable {items}

theorem getElem?_down_of_le (boundLe : bound ≤ items.length) (above : bound ≤ k) :
    (down key fuel items i bound).1[k]? = items[k]? := by
  induction fuel generalizing items i with
  | zero => rfl
  | succ fuel ih =>
    unfold down
    dsimp only
    split
    · rfl
    · split
      · rfl
      · have childLt : child key items i bound < bound := by
          unfold child
          split <;> omega
        rw [ih (by rwa [length_swap])]
        exact getElem?_swap_of_ne (by omega) (by omega) (by omega) (by omega)

theorem getElem?_up_of_lt (jLt : j < items.length) (above : j < k) :
    (up key fuel items j)[k]? = items[k]? := by
  induction fuel generalizing items j with
  | zero => rfl
  | succ fuel ih =>
    unfold up
    dsimp only
    split
    · rfl
    · rw [ih (by rw [length_swap]; omega) (by omega)]
      exact getElem?_swap_of_ne (by omega) jLt (by omega) (by omega)

private theorem take_last {last : α} (same : sifted.Perm items)
    (lastAt : sifted[items.length - 1]? = some last) :
    sifted.getLast? = some last ∧ items.Perm (last :: sifted.dropLast) := by
  rw [← same.length_eq, ← List.getLast?_eq_getElem?] at lastAt
  refine ⟨lastAt, same.symm.trans ?_⟩
  obtain ⟨initial, siftedEq⟩ := List.getLast?_eq_some_iff.mp lastAt
  rw [siftedEq, dropLast_concat]
  exact perm_append_singleton last initial

theorem pop_perm (rootAt : items[0]? = some root) :
    (pop key items).1 = some root ∧ items.Perm (root :: (pop key items).2) := by
  have nonempty : 0 < items.length := (List.getElem?_eq_some_iff.mp rootAt).1
  refine take_last ((down_perm key _ _ _ _).trans (swap_perm items _ _)) ?_
  rw [getElem?_down_of_le key (by rw [length_swap]; omega) (Nat.le_refl _),
    getElem?_swap_right nonempty (by omega)]
  exact rootAt

theorem remove_perm (itemAt : items[i]? = some item) :
    (remove key items i).1 = some item ∧ items.Perm (item :: (remove key items i).2) := by
  have iLt : i < items.length := (List.getElem?_eq_some_iff.mp itemAt).1
  unfold remove
  dsimp only
  by_cases isLast : items.length - 1 = i
  · rw [if_pos isLast]
    exact take_last (refl _) (isLast ▸ itemAt)
  · rw [if_neg isLast]
    have lowered := (down_perm key items.length (swap items i (items.length - 1)) i
      (items.length - 1)).trans (swap_perm items _ _)
    have lastAt : (down key items.length (swap items i (items.length - 1)) i
          (items.length - 1)).1[items.length - 1]? = some item := by
      rw [getElem?_down_of_le key (by rw [length_swap]; omega) (Nat.le_refl _),
        getElem?_swap_right iLt (by omega)]
      exact itemAt
    split
    · exact take_last lowered lastAt
    · refine take_last ((up_perm key _ _ _).trans lowered) ?_
      rw [getElem?_up_of_lt key (by rwa [lowered.length_eq]) (by omega)]
      exact lastAt

def Edge (p c : Nat) : Prop := c = 2 * p + 1 ∨ c = 2 * p + 2

def Ordered (items : List α) (p c : Nat) : Prop :=
  ∀ x y, items[p]? = some x → items[c]? = some y → key x ≤ key y

/-- Below the bound, the children of the nodes from `low` on are in order. -/
def HeapFrom (items : List α) (bound low : Nat) : Prop :=
  ∀ p c, Edge p c → low ≤ p → c < bound → Ordered key items p c

def IsHeap (items : List α) : Prop := HeapFrom key items items.length 0

variable {key}

theorem Ordered.of_eq {items changed : List α} {p c p' c' : Nat}
    (ordered : Ordered key items p c) (parentEq : changed[p']? = items[p]?)
    (childEq : changed[c']? = items[c]?) : Ordered key changed p' c' := by
  intro x y xAt yAt
  rw [parentEq] at xAt
  rw [childEq] at yAt
  exact ordered x y xAt yAt

theorem Ordered.trans (first : Ordered key items p q) (second : Ordered key items q c)
    (inUse : q < items.length) : Ordered key items p c := by
  intro x z xAt zAt
  have mid := List.getElem?_eq_getElem inUse
  exact le_trans (first x _ xAt mid) (second _ z mid zAt)

theorem ordered_of_less (smaller : less key items j i = true) : Ordered key items j i := by
  intro x y xAt yAt
  unfold less at smaller
  rw [xAt, yAt] at smaller
  exact le_of_lt (of_decide_eq_true smaller)

theorem ordered_of_not_less (notSmaller : less key items j i = false) : Ordered key items i j := by
  intro x y xAt yAt
  unfold less at notSmaller
  rw [xAt, yAt] at notSmaller
  exact le_of_not_gt (of_decide_eq_false notSmaller)

theorem Edge.lt (edge : Edge p c) : p < c := by rcases edge with left | right <;> omega

theorem Edge.parent_unique (first : Edge p c) (second : Edge q c) : p = q := by
  rcases first with left | right <;> rcases second with left' | right' <;> omega

variable (key) in
theorem child_spec (items : List α) (inside : ¬ bound ≤ 2 * i + 1) :
    Edge i (child key items i bound) ∧ child key items i bound < bound ∧
      ∀ c, Edge i c → c < bound → Ordered key items (child key items i bound) c := by
  have self (c : Nat) : Ordered key items c c := by
    intro x y xAt yAt
    cases xAt.symm.trans yAt
    exact le_rfl
  unfold child
  by_cases right : 2 * i + 2 < bound ∧ less key items (2 * i + 2) (2 * i + 1)
  · rw [if_pos right]
    refine ⟨.inr rfl, right.1, ?_⟩
    rintro c (isLeft | isRight) -
    · rw [isLeft]
      exact ordered_of_less right.2
    · rw [isRight]
      exact self _
  · rw [if_neg right]
    refine ⟨.inl rfl, by omega, ?_⟩
    rintro c (isLeft | isRight) below
    · rw [isLeft]
      exact self _
    · rw [isRight] at below ⊢
      refine ordered_of_not_less (Bool.eq_false_iff.mpr fun smaller => ?_)
      exact right ⟨below, smaller⟩

variable (key) in
/-- What sifting down from `i` needs: the edges that do not leave `i` are in
order, and so are the parent and the children of `i`. -/
structure DownReady (items : List α) (bound low i : Nat) : Prop where
  others : ∀ p c, Edge p c → low ≤ p → p ≠ i → c < bound → Ordered key items p c
  across : ∀ q c, Edge q i → low ≤ q → Edge i c → c < bound → Ordered key items q c

variable (key) in
/-- What sifting up from `j` needs: the edges that do not enter `j` are in order,
and so are the parent and the children of `j`. -/
structure UpReady (items : List α) (bound j : Nat) : Prop where
  others : ∀ p c, Edge p c → c ≠ j → c < bound → Ordered key items p c
  across : ∀ q c, Edge q j → Edge j c → c < bound → Ordered key items q c

theorem DownReady.swap (ready : DownReady key items bound low i) (boundLe : bound ≤ items.length)
    (lowLe : low ≤ i) (edge : Edge i j) (jLt : j < bound)
    (smallest : ∀ c, Edge i c → c < bound → Ordered key items j c)
    (smaller : Ordered key items j i) : DownReady key (swap items i j) bound low j := by
  have iLtJ := edge.lt
  have iLt : i < items.length := by omega
  have jLtLength : j < items.length := by omega
  have atI := getElem?_swap_left iLt jLtLength
  have atJ := getElem?_swap_right iLt jLtLength
  have elsewhere {k : Nat} (notI : k ≠ i) (notJ : k ≠ j) :=
    getElem?_swap_of_ne iLt jLtLength notI notJ
  constructor
  · intro p c edgeC lowLeP notJ below
    have pLtC := edgeC.lt
    by_cases isI : p = i
    · subst isI
      by_cases isJ : c = j
      · subst isJ
        exact smaller.of_eq atI atJ
      · exact (smallest c edgeC below).of_eq atI (elsewhere (by omega) isJ)
    · by_cases entersI : c = i
      · subst entersI
        exact (ready.across p j edgeC lowLeP edge jLt).of_eq (elsewhere isI notJ) atI
      · have notEntersJ : c ≠ j := by
          rintro rfl
          exact isI (edgeC.parent_unique edge)
        exact (ready.others p c edgeC lowLeP isI below).of_eq (elsewhere isI notJ)
          (elsewhere entersI notEntersJ)
  · intro q c edgeQ lowLeQ edgeC below
    have jLtC := edgeC.lt
    cases edgeQ.parent_unique edge
    exact (ready.others j c edgeC (by omega) (by omega) below).of_eq atI
      (elsewhere (by omega) (by omega))

theorem UpReady.swap (ready : UpReady key items bound j) (boundLe : bound ≤ items.length)
    (edge : Edge i j) (jLt : j < bound) (smaller : Ordered key items j i) :
    UpReady key (swap items i j) bound i := by
  have iLtJ := edge.lt
  have iLt : i < items.length := by omega
  have jLtLength : j < items.length := by omega
  have atI := getElem?_swap_left iLt jLtLength
  have atJ := getElem?_swap_right iLt jLtLength
  have elsewhere {k : Nat} (notI : k ≠ i) (notJ : k ≠ j) :=
    getElem?_swap_of_ne iLt jLtLength notI notJ
  constructor
  · intro p c edgeC notI below
    have pLtC := edgeC.lt
    by_cases isI : p = i
    · subst isI
      by_cases isJ : c = j
      · subst isJ
        exact smaller.of_eq atI atJ
      · have sibling := smaller.trans (ready.others p c edgeC isJ below) iLt
        exact sibling.of_eq atI (elsewhere (by omega) isJ)
    · have notEntersJ : c ≠ j := by
        rintro rfl
        exact isI (edgeC.parent_unique edge)
      by_cases isJ : p = j
      · subst isJ
        exact (ready.across i c edge edgeC below).of_eq atJ (elsewhere notI notEntersJ)
      · exact (ready.others p c edgeC notEntersJ below).of_eq (elsewhere isI isJ)
          (elsewhere notI notEntersJ)
  · intro q c edgeQ edgeC below
    have qLtI := edgeQ.lt
    have aboveI := ready.others q i edgeQ (by omega) (by omega)
    by_cases isJ : c = j
    · subst isJ
      exact aboveI.of_eq (elsewhere (by omega) (by omega)) atJ
    · have iLtC := edgeC.lt
      have sibling := aboveI.trans (ready.others i c edgeC isJ below) iLt
      exact sibling.of_eq (elsewhere (by omega) (by omega)) (elsewhere (by omega) isJ)

theorem heapFrom_down (boundLe : bound ≤ items.length) (enough : bound ≤ i + fuel)
    (lowLe : low ≤ i) (ready : DownReady key items bound low i) :
    HeapFrom key (down key fuel items i bound).1 bound low := by
  induction fuel generalizing items i with
  | zero =>
    intro p c edge lowLeP below
    have pLtC := edge.lt
    exact ready.others p c edge lowLeP (by omega) below
  | succ fuel ih =>
    unfold down
    dsimp only
    by_cases outside : bound ≤ 2 * i + 1
    · rw [if_pos outside]
      intro p c edge lowLeP below
      have notI : p ≠ i := by rcases edge with left | right <;> omega
      exact ready.others p c edge lowLeP notI below
    · rw [if_neg outside]
      obtain ⟨edgeJ, jLt, smallest⟩ := child_spec key items outside
      have iLtJ := edgeJ.lt
      generalize child key items i bound = j at edgeJ jLt smallest iLtJ
      cases smaller : less key items j i with
      | false =>
        intro p c edge lowLeP below
        by_cases atI : p = i
        · subst atI
          exact (ordered_of_not_less smaller).trans (smallest c edge below) (by omega)
        · exact ready.others p c edge lowLeP atI below
      | true =>
        refine ih (by rwa [length_swap]) (by omega) (by omega) ?_
        exact ready.swap boundLe lowLe edgeJ jLt smallest (ordered_of_less smaller)

theorem edge_parent (positive : 0 < j) : Edge ((j - 1) / 2) j := by
  unfold Edge
  omega

theorem heapFrom_up (boundLe : bound ≤ items.length) (jLt : j < bound) (enough : j ≤ fuel)
    (ready : UpReady key items bound j) : HeapFrom key (up key fuel items j) bound 0 := by
  induction fuel generalizing items j with
  | zero =>
    intro p c edge _ below
    have pLtC := edge.lt
    exact ready.others p c edge (by omega) below
  | succ fuel ih =>
    unfold up
    dsimp only
    by_cases atRoot : (j - 1) / 2 = j
    · rw [if_pos (.inl atRoot)]
      intro p c edge _ below
      have pLtC := edge.lt
      exact ready.others p c edge (by omega) below
    · have edgeJ := edge_parent (j := j) (by omega)
      cases smaller : less key items j ((j - 1) / 2) with
      | false =>
        rw [if_pos (.inr rfl)]
        intro p c edge _ below
        by_cases atJ : c = j
        · subst atJ
          rw [edge.parent_unique edgeJ]
          exact ordered_of_not_less smaller
        · exact ready.others p c edge atJ below
      | true =>
        rw [if_neg (by simp [atRoot])]
        refine ih (by rwa [length_swap]) (by omega) (by omega) ?_
        exact ready.swap boundLe edgeJ jLt (ordered_of_less smaller)

theorem isHeap_nil : IsHeap key ([] : List α) := by
  intro p c _ _ below
  exact absurd below (not_lt_zero c)

private theorem HeapFrom.dropLast (same : sifted.Perm items)
    (heap : HeapFrom key sifted (items.length - 1) 0) : IsHeap key sifted.dropLast := by
  intro p c edge lowLe below
  rw [length_dropLast, same.length_eq] at below
  have pLtC := edge.lt
  have kept {k : Nat} (inside : k < items.length - 1) : sifted.dropLast[k]? = sifted[k]? := by
    rw [dropLast_eq_take, List.getElem?_take, same.length_eq, if_pos inside]
  exact (heap p c edge lowLe below).of_eq (kept (by omega)) (kept below)

theorem isHeap_push (heap : IsHeap key items) (item : α) : IsHeap key (push key items item) := by
  have lengthEq : (push key items item).length = items.length + 1 :=
    (push_perm key items item).length_eq
  have kept {k : Nat} (inside : k < items.length) : (items ++ [item])[k]? = items[k]? :=
    List.getElem?_append_left inside
  unfold IsHeap
  rw [lengthEq]
  refine heapFrom_up (by simp) (lt_succ_self _) (le_succ _) ⟨?_, ?_⟩
  · intro p c edge notLast below
    have pLtC := edge.lt
    have inside : c < items.length := by omega
    exact (heap p c edge (Nat.zero_le _) inside).of_eq (kept (by omega)) (kept inside)
  · intro q c _ edge below
    have beyond := edge.lt
    omega

theorem isHeap_pop (heap : IsHeap key items) : IsHeap key (pop key items).2 := by
  refine HeapFrom.dropLast ((down_perm key _ _ _ _).trans (swap_perm items _ _)) ?_
  refine heapFrom_down (by rw [length_swap]; omega) (by omega) (Nat.le_refl 0) ⟨?_, ?_⟩
  · intro p c edge _ notRoot below
    have pLtC := edge.lt
    have elsewhere {k : Nat} (notRoot : k ≠ 0) (notLast : k ≠ items.length - 1) :
        (swap items 0 (items.length - 1))[k]? = items[k]? :=
      getElem?_swap_of_ne (by omega) (by omega) notRoot notLast
    exact (heap p c edge (Nat.zero_le _) (by omega)).of_eq
      (elsewhere notRoot (by omega)) (elsewhere (by omega) (by omega))
  · intro q c edge _ _ _
    exact absurd edge.lt (not_lt_zero q)

theorem HeapFrom.upReady (heap : HeapFrom key items bound 0) (boundLe : bound ≤ items.length)
    (jLt : j < bound) : UpReady key items bound j where
  others := fun p c edge _ below => heap p c edge (Nat.zero_le _) below
  across := fun q c edgeQ edgeC below =>
    (heap q j edgeQ (Nat.zero_le _) jLt).trans (heap j c edgeC (Nat.zero_le _) below) (by omega)

variable (key) in
theorem Ordered.total (items : List α) (i j : Nat) :
    Ordered key items i j ∨ Ordered key items j i := by
  cases smaller : less key items j i with
  | false => exact .inl (ordered_of_not_less smaller)
  | true => exact .inr (ordered_of_less smaller)

theorem down_eq_self (below : ∀ c, Edge i c → c < bound → Ordered key items i c) :
    down key fuel items i bound = (items, i) := by
  cases fuel with
  | zero => rfl
  | succ fuel =>
    unfold down
    by_cases outside : bound ≤ 2 * i + 1
    · rw [if_pos outside]
    · rw [if_neg outside]
      obtain ⟨edge, childLt, -⟩ := child_spec key items outside
      have notSmaller := below _ edge childLt
      have stays : less key items (child key items i bound) i = false := by
        unfold less
        split
        · next x y xAt yAt => exact decide_eq_false (not_lt_of_ge (notSmaller y x yAt xAt))
        · rfl
      rw [if_pos stays]

theorem isHeap_remove (heap : IsHeap key items) (iLt : i < items.length) :
    IsHeap key (remove key items i).2 := by
  unfold remove
  dsimp only
  by_cases isLast : items.length - 1 = i
  · rw [if_pos isLast]
    refine HeapFrom.dropLast (refl _) ?_
    intro p c edge lowLe below
    exact heap p c edge lowLe (by omega)
  · rw [if_neg isLast]
    have elsewhere {k : Nat} (notI : k ≠ i) (notLast : k ≠ items.length - 1) :
        (swap items i (items.length - 1))[k]? = items[k]? :=
      getElem?_swap_of_ne iLt (by omega) notI notLast
    have lengthLe : items.length - 1 ≤ (swap items i (items.length - 1)).length := by
      rw [length_swap]
      omega
    -- the edges that do not touch `i` are those of the heap
    have untouched (p c : Nat) (edge : Edge p c) (notFrom : p ≠ i) (notTo : c ≠ i)
        (below : c < items.length - 1) :
        Ordered key (swap items i (items.length - 1)) p c := by
      have pLtC := edge.lt
      exact (heap p c edge (Nat.zero_le _) (by omega)).of_eq
        (elsewhere notFrom (by omega)) (elsewhere notTo (by omega))
    have across (q c : Nat) (edgeQ : Edge q i) (edgeC : Edge i c) (below : c < items.length - 1) :
        Ordered key (swap items i (items.length - 1)) q c := by
      have qLt := edgeQ.lt
      have iLtC := edgeC.lt
      have through := (heap q i edgeQ (Nat.zero_le _) iLt).trans
        (heap i c edgeC (Nat.zero_le _) (by omega)) iLt
      exact through.of_eq (elsewhere (by omega) (by omega)) (elsewhere (by omega) (by omega))
    have lowered := (down_perm key items.length (swap items i (items.length - 1)) i
      (items.length - 1)).trans (swap_perm items _ _)
    generalize swap items i (items.length - 1) = swapped at *
    by_cases entering : ∀ q, Edge q i → Ordered key swapped q i
    · have ready : DownReady key swapped (items.length - 1) 0 i := by
        refine ⟨fun p c edge _ notFrom below => ?_,
          fun q c edgeQ _ edgeC below => across q c edgeQ edgeC below⟩
        by_cases entersI : c = i
        · subst entersI
          exact entering p edge
        · exact untouched p c edge notFrom entersI below
      have sifted : HeapFrom key (down key items.length swapped i
          (items.length - 1)).1 (items.length - 1) 0 :=
        heapFrom_down lengthLe (by omega) (Nat.zero_le i) ready
      split
      · exact HeapFrom.dropLast lowered sifted
      · refine HeapFrom.dropLast ((up_perm key _ _ _).trans lowered) ?_
        have siftedLe : items.length - 1 ≤
            (down key items.length swapped i (items.length - 1)).1.length := by
          rw [lowered.length_eq]
          omega
        exact heapFrom_up siftedLe (by omega) (by omega) (sifted.upReady siftedLe (by omega))
    · -- smaller than its parent, the new element is smaller than its children
      have leaving (c : Nat) (edge : Edge i c) (below : c < items.length - 1) :
          Ordered key swapped i c := by
        by_contra notOrdered
        refine entering fun q edgeQ => ?_
        rcases Ordered.total key swapped q i with ordered | reversed
        · exact ordered
        · have qLt := edgeQ.lt
          exact absurd (reversed.trans (across q c edgeQ edge below) (by omega)) notOrdered
      have stays : down key items.length swapped i (items.length - 1) = (swapped, i) :=
        down_eq_self leaving
      rw [stays] at lowered ⊢
      rw [if_neg (Nat.lt_irrefl i)]
      refine HeapFrom.dropLast ((up_perm key _ _ _).trans lowered) ?_
      refine heapFrom_up lengthLe (by omega) (by omega) ⟨fun p c edge notTo below => ?_, across⟩
      by_cases fromI : p = i
      · subst fromI
        exact leaving c edge below
      · exact untouched p c edge fromI notTo below

theorem heapFrom_initFrom {start bound : Nat} (lengthEq : items.length = bound)
    (heap : HeapFrom key items bound start) : HeapFrom key (initFrom key start items) bound 0 := by
  induction start generalizing items with
  | zero => exact heap
  | succ start ih =>
    refine ih ((down_perm key _ items start _).length_eq.trans lengthEq) ?_
    rw [lengthEq]
    refine heapFrom_down (Nat.le_of_eq lengthEq.symm) (by omega) (Nat.le_refl start) ⟨?_, ?_⟩
    · intro p c edge lowLe notStart below
      exact heap p c edge (by omega) below
    · intro q c edge lowLe _ _
      have qLt := edge.lt
      omega

theorem isHeap_init (items : List α) : IsHeap key (init key items) := by
  unfold IsHeap
  rw [(init_perm key items).length_eq]
  refine heapFrom_initFrom rfl fun p c edge lowLe below => ?_
  rcases edge with left | right <;> omega

theorem root_le (heap : IsHeap key items) (rootAt : items[0]? = some root) (mem : item ∈ items) :
    key root ≤ key item := by
  obtain ⟨k, kLt, itemAt⟩ := mem_iff_getElem.mp mem
  replace itemAt : items[k]? = some item := List.getElem?_eq_some_iff.mpr ⟨kLt, itemAt⟩
  clear mem
  induction k using Nat.strongRecOn generalizing item with
  | ind k ih =>
    by_cases atRoot : k = 0
    · subst atRoot
      cases rootAt.symm.trans itemAt
      exact le_rfl
    · have edge := edge_parent (j := k) (by omega)
      have parentLt := edge.lt
      have parentAt := List.getElem?_eq_getElem (Nat.lt_trans parentLt kLt)
      exact le_trans (ih _ parentLt (by omega) parentAt)
        (heap _ k edge (Nat.zero_le _) kLt _ _ parentAt itemAt)

end MoacVnode.Lib.Heap
