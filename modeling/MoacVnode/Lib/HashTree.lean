import Mathlib.Tactic

/-!
# Trees whose nodes name their parent by hash

A node carries its own hash, the hash of its parent and a number.  A
`HashTree` is a set of such nodes in which a hash identifies its node and a
child is numbered one above its parent.  The branch that ends at a node is
then determined: it holds at most one node for every number.
-/

namespace MoacVnode.Lib

universe u v

open Relation.ReflTransGen

/-- How a node type exposes its hash, the hash of its parent and its number. -/
structure Links (α : Type u) (H : Type v) where
  hash : α → H
  parentHash : α → H
  number : α → Nat

/-- A set of hash-linked nodes around a root of number zero. -/
structure HashTree {α : Type u} {H : Type v} (links : Links α H) where
  mem : α → Prop
  root : α
  root_mem : mem root
  root_number : links.number root = 0
  hash_injective :
    ∀ {left right}, mem left → mem right → links.hash left = links.hash right → left = right
  number_parent :
    ∀ {parent child}, mem parent → mem child →
      links.parentHash child = links.hash parent → links.number child = links.number parent + 1

namespace HashTree

variable {α : Type u} {H : Type v} {links : Links α H} {first second child parent node target : α}
  {stored : α → Prop}

def Parent (tree : HashTree links) (parent child : α) : Prop :=
  tree.mem parent ∧ tree.mem child ∧ links.parentHash child = links.hash parent

/-- `Ancestor a c` means that `a` lies on the branch that ends at `c`; a node
is an ancestor of itself. -/
def Ancestor (tree : HashTree links) : α → α → Prop := Relation.ReflTransGen tree.Parent

@[simps]
def ofList (links : Links α H) (root : α) (nodes : List α) (rootNumber : links.number root = 0)
    (hashes :
      ∀ left ∈ root :: nodes, ∀ right ∈ root :: nodes,
        links.hash left = links.hash right → left = right)
    (numbers :
      ∀ parent ∈ root :: nodes, ∀ child ∈ root :: nodes,
        links.parentHash child = links.hash parent → links.number child = links.number parent + 1) :
    HashTree links where
  mem node := node ∈ root :: nodes
  root := root
  root_mem := List.mem_cons_self
  root_number := rootNumber
  hash_injective leftMem rightMem := hashes _ leftMem _ rightMem
  number_parent parentMem childMem := numbers _ parentMem _ childMem

variable {tree : HashTree links}

theorem parent_unique (firstParent : tree.Parent first child)
    (secondParent : tree.Parent second child) : first = second :=
  tree.hash_injective firstParent.1 secondParent.1 (firstParent.2.2.symm.trans secondParent.2.2)

theorem number_of_parent (link : tree.Parent parent child) :
    links.number child = links.number parent + 1 :=
  tree.number_parent link.1 link.2.1 link.2.2

theorem not_parent_root (node : α) : ¬ tree.Parent node tree.root := by
  intro link
  have numEq := number_of_parent link
  rw [tree.root_number] at numEq
  omega

@[simp]
theorem ancestor_self (node : α) : tree.Ancestor node node := Relation.ReflTransGen.refl

theorem Ancestor.trans {first second third : α} (lower : tree.Ancestor first second)
    (upper : tree.Ancestor second third) : tree.Ancestor first third :=
  Relation.ReflTransGen.trans lower upper

theorem Ancestor.of_parent (link : tree.Parent parent child) : tree.Ancestor parent child :=
  Relation.ReflTransGen.single link

theorem ancestor_iff_of_parent (link : tree.Parent parent child) :
    tree.Ancestor node child ↔ node = child ∨ tree.Ancestor node parent := by
  constructor
  · intro path
    rcases cases_tail path with equal | ⟨mid, lower, last⟩
    · exact .inl equal.symm
    · rw [parent_unique last link] at lower
      exact .inr lower
  · rintro (rfl | lower)
    · exact ancestor_self node
    · exact lower.trans (Ancestor.of_parent link)

theorem ancestor_root_iff : tree.Ancestor node tree.root ↔ node = tree.root := by
  constructor
  · intro path
    rcases cases_tail path with equal | ⟨mid, _, last⟩
    · exact equal.symm
    · exact False.elim (not_parent_root mid last)
  · rintro rfl
    exact ancestor_self _

section

variable (path : tree.Ancestor node target)

include path

theorem Ancestor.mem (targetMem : tree.mem target) : tree.mem node := by
  rcases cases_head path with equal | ⟨mid, first, _⟩
  · rw [equal]
    exact targetMem
  · exact first.1

theorem Ancestor.number_le : links.number node ≤ links.number target := by
  induction path with
  | refl => exact Nat.le_refl _
  | tail _ last ih =>
    have numEq := number_of_parent last
    omega

theorem Ancestor.eq_of_number_le (bound : links.number target ≤ links.number node) :
    node = target := by
  rcases cases_tail path with equal | ⟨mid, lower, last⟩
  · exact equal.symm
  · have lowerBound := Ancestor.number_le lower
    have numEq := number_of_parent last
    omega

end

theorem Ancestor.ancestor_of_number_le {lower upper target : α}
    (lowerPath : tree.Ancestor lower target) (upperPath : tree.Ancestor upper target)
    (bound : links.number lower ≤ links.number upper) : tree.Ancestor lower upper := by
  induction upperPath with
  | refl => exact lowerPath
  | @tail mid target upperPath last ih =>
    rcases (ancestor_iff_of_parent last).mp lowerPath with rfl | path
    · have middleBound := Ancestor.number_le upperPath
      have numEq := number_of_parent last
      omega
    · exact ih path

theorem Ancestor.unique (firstPath : tree.Ancestor first target)
    (secondPath : tree.Ancestor second target)
    (sameNumber : links.number first = links.number second) : first = second :=
  (firstPath.ancestor_of_number_le secondPath
    (Nat.le_of_eq sameNumber)).eq_of_number_le (Nat.le_of_eq sameNumber.symm)

theorem Ancestor.exists_parent (rooted : tree.Ancestor tree.root node)
    (positive : 0 < links.number node) :
    ∃ parent, tree.Parent parent node ∧ tree.Ancestor tree.root parent := by
  rcases cases_tail rooted with isRoot | ⟨parent, lower, link⟩
  · rw [isRoot, tree.root_number] at positive
    exact False.elim (Nat.lt_irrefl 0 positive)
  · exact ⟨parent, link, lower⟩

/-- A set of nodes that holds the parent of each of its nodes but the root
holds whole branches. -/
def Closed (tree : HashTree links) (stored : α → Prop) : Prop :=
  ∀ node, stored node → node ≠ tree.root → ∃ parent, stored parent ∧ tree.Parent parent node

section

variable (closed : tree.Closed stored)

include closed

theorem Closed.ancestor (path : tree.Ancestor node target) (targetStored : stored target) :
    stored node := by
  induction path with
  | refl => exact targetStored
  | @tail mid target _ last ih =>
    apply ih
    have notRoot : target ≠ tree.root := by
      rintro rfl
      exact not_parent_root mid last
    obtain ⟨parent, hasParent, link⟩ := closed target targetStored notRoot
    rwa [parent_unique last link]

theorem Closed.exists_ancestor (targetStored : stored target) {number : Nat}
    (bound : number ≤ links.number target) :
    ∃ node, stored node ∧ tree.Ancestor node target ∧ links.number node = number := by
  -- Walk down from the target; the distance still to go is what shrinks.
  obtain ⟨distance, reaches⟩ := Nat.exists_eq_add_of_le bound
  induction distance generalizing target with
  | zero => exact ⟨target, targetStored, ancestor_self target, by omega⟩
  | succ distance ih =>
    have notRoot : target ≠ tree.root := by
      intro isRoot
      have rootNumber := tree.root_number
      rw [← isRoot] at rootNumber
      omega
    obtain ⟨parent, hasParent, link⟩ := closed target targetStored notRoot
    have parentNumber := number_of_parent link
    obtain ⟨node, nodeStored, path, nodeNumber⟩ := ih hasParent (by omega) (by omega)
    exact ⟨node, nodeStored, path.trans (Ancestor.of_parent link), nodeNumber⟩

theorem Closed.root_ancestor (targetStored : stored target) : tree.Ancestor tree.root target := by
  obtain ⟨node, nodeStored, path, nodeNumber⟩ := closed.exists_ancestor targetStored (Nat.zero_le _)
  have isRoot : node = tree.root := by
    apply Classical.byContradiction
    intro notRoot
    obtain ⟨parent, _, link⟩ := closed node nodeStored notRoot
    have numEq := number_of_parent link
    omega
  rw [← isRoot]
  exact path

end

/-- `Segment top nodes bottom`: the nodes of the branch of `top` above
`bottom`, the top one first. -/
inductive Segment (tree : HashTree links) : α → List α → α → Prop
  | nil (node : α) : Segment tree node [] node
  | cons {parent top bottom : α} {nodes : List α}
      (link : tree.Parent parent top) (rest : Segment tree parent nodes bottom) :
      Segment tree top (top :: nodes) bottom

namespace Segment

variable {top mid bottom node : α} {nodes : List α}

theorem ancestor (segment : tree.Segment top nodes bottom) : tree.Ancestor bottom top := by
  induction segment with
  | nil node => exact ancestor_self node
  | cons link _ ih => exact ih.trans (Ancestor.of_parent link)

theorem append {lower : List α} (segment : tree.Segment top nodes mid)
    (rest : tree.Segment mid lower bottom) : tree.Segment top (nodes ++ lower) bottom := by
  induction segment with
  | nil node => exact rest
  | cons link _ ih => exact .cons link (ih rest)

section

variable (segment : tree.Segment top nodes bottom)

include segment

theorem mem_iff :
    node ∈ nodes ↔ tree.Ancestor node top ∧ links.number bottom < links.number node := by
  induction segment with
  | nil bottom =>
    constructor
    · intro impossible
      cases impossible
    · rintro ⟨path, above⟩
      have below := Ancestor.number_le path
      omega
  | @cons parent top bottom nodes link rest ih =>
    have lower := Ancestor.number_le rest.ancestor
    have numEq := number_of_parent link
    rw [List.mem_cons, ih, ancestor_iff_of_parent link]
    constructor
    · rintro (isTop | ⟨path, above⟩)
      · rw [isTop]
        exact ⟨Or.inl rfl, by omega⟩
      · exact ⟨Or.inr path, above⟩
    · rintro ⟨isTop | path, above⟩
      · exact .inl isTop
      · exact .inr ⟨path, above⟩

theorem number_lt (nodeMem : node ∈ nodes) : links.number bottom < links.number node :=
  (segment.mem_iff.mp nodeMem).2

theorem ancestor_of_mem (nodeMem : node ∈ nodes) : tree.Ancestor node top :=
  (segment.mem_iff.mp nodeMem).1

end

end Segment

end HashTree

end MoacVnode.Lib
