import Mathlib.Algebra.Ring.Nat
import Mathlib.Data.List.Basic
import Mathlib.Data.List.Range

/-!
# Ordered trees

A rooted tree whose nodes have their children in order. A node is named by its address, the
positions of the children on the way to it, and its place is the number of nodes before it in
document order. The places of a subtree follow each other.
-/

namespace Agentless

inductive OrderedTree (α : Type) where
  | node (label : α) (children : List (OrderedTree α))

namespace OrderedTree

variable {α : Type}

def label : OrderedTree α → α
  | .node label _ => label

def children : OrderedTree α → List (OrderedTree α)
  | .node _ children => children

mutual

/-- The number of nodes. -/
def size : OrderedTree α → Nat
  | .node _ children => 1 + sizes children

def sizes : List (OrderedTree α) → Nat
  | [] => 0
  | tree :: trees => size tree + sizes trees

end

theorem size_eq (tree : OrderedTree α) : tree.size = 1 + sizes tree.children := by
  cases tree
  rfl

theorem size_pos (tree : OrderedTree α) : 0 < tree.size := by
  rw [size_eq]
  exact Nat.add_pos_left Nat.one_pos _

theorem sizes_append (trees more : List (OrderedTree α)) :
    sizes (trees ++ more) = sizes trees + sizes more := by
  induction trees with
  | nil => simp [sizes]
  | cons tree trees ih => rw [List.cons_append, sizes, sizes, ih, Nat.add_assoc]

/-! ## Addresses -/

abbrev Address := List Nat

/-- The subtree of the node at the address. -/
def at? : OrderedTree α → Address → Option (OrderedTree α)
  | tree, [] => some tree
  | .node _ children, position :: address => children[position]?.bind (at? · address)

/-- How many nodes come before the node at the address. -/
def place : OrderedTree α → Address → Nat
  | _, [] => 0
  | .node _ children, position :: address =>
    1 + sizes (children.take position) + (children[position]?.map (place · address)).getD 0

mutual

/-- The addresses of all nodes, in document order. -/
def addresses : OrderedTree α → List Address
  | .node _ children => [] :: addressesFrom 0 children

def addressesFrom (position : Nat) : List (OrderedTree α) → List Address
  | [] => []
  | tree :: trees => (addresses tree).map (position :: ·) ++ addressesFrom (position + 1) trees

end

@[simp] theorem at?_nil (tree : OrderedTree α) : tree.at? [] = some tree := by
  cases tree
  rfl

@[simp] theorem place_nil (tree : OrderedTree α) : tree.place [] = 0 := by
  cases tree
  rfl

theorem at?_cons (tree : OrderedTree α) (position : Nat) (address : Address) :
    tree.at? (position :: address) = tree.children[position]?.bind (at? · address) := by
  cases tree
  rfl

theorem place_cons (tree : OrderedTree α) (position : Nat) (address : Address) :
    tree.place (position :: address) = 1 + sizes (tree.children.take position) +
      (tree.children[position]?.map (place · address)).getD 0 := by
  cases tree
  rfl

theorem at?_append (tree : OrderedTree α) (address below : Address) :
    tree.at? (address ++ below) = (tree.at? address).bind (at? · below) := by
  induction address generalizing tree with
  | nil => simp
  | cons position address ih =>
    rw [List.cons_append, at?_cons, at?_cons]
    cases tree.children[position]? with
    | none => rfl
    | some child => exact ih child

/-- The places below a node count on from its own. -/
theorem place_append {tree subtree : OrderedTree α} {address : Address}
    (h : tree.at? address = some subtree) (below : Address) :
    tree.place (address ++ below) = tree.place address + subtree.place below := by
  induction address generalizing tree with
  | nil =>
    obtain rfl : tree = subtree := by simpa using h
    simp
  | cons position address ih =>
    rw [at?_cons] at h
    obtain ⟨child, hchild, hbelow⟩ := Option.bind_eq_some_iff.mp h
    rw [List.cons_append, place_cons, place_cons, hchild]
    simp only [Option.map_some, Option.getD_some, ih hbelow, Nat.add_assoc]

/-- The places of the children of a node: each follows the subtree of the one before. -/
theorem place_child {tree subtree : OrderedTree α} {address : Address}
    (h : tree.at? address = some subtree) (position : Nat) :
    tree.place (address ++ [position]) =
      tree.place address + 1 + sizes (subtree.children.take position) := by
  rw [place_append h, place_cons]
  cases subtree.children[position]? with
  | none => simp [Nat.add_assoc]
  | some child => simp [Nat.add_assoc]

theorem sizes_take_succ {trees : List (OrderedTree α)} {position : Nat} {tree : OrderedTree α}
    (h : trees[position]? = some tree) :
    sizes (trees.take (position + 1)) = sizes (trees.take position) + tree.size := by
  rw [List.take_add_one, h, sizes_append]
  simp [sizes]

mutual

/-- The nodes in document order have the places from zero on. -/
theorem map_place_addresses : (tree : OrderedTree α) →
    tree.addresses.map tree.place = List.range tree.size
  | .node label children => by
    have hbelow := map_place_addressesFrom label [] children
    rw [List.nil_append, List.length_nil, sizes, Nat.add_zero] at hbelow
    rw [addresses, size, List.map_cons, hbelow, place_nil, List.range_eq_range', Nat.add_comm,
      List.range'_succ, Nat.zero_add]

theorem map_place_addressesFrom (label : α) : (before trees : List (OrderedTree α)) →
    (addressesFrom before.length trees).map (place (.node label (before ++ trees))) =
      List.range' (1 + sizes before) (sizes trees)
  | before, [] => rfl
  | before, tree :: trees => by
    have hplace (address : Address) : place (.node label (before ++ tree :: trees))
        (before.length :: address) = 1 + sizes before + tree.place address := by
      rw [place_cons]
      simp [children]
    have hfirst : ((addresses tree).map (before.length :: ·)).map
        (place (.node label (before ++ tree :: trees))) =
        List.range' (1 + sizes before) tree.size := by
      rw [List.map_map, List.range'_eq_map_range, ← map_place_addresses tree, List.map_map]
      exact List.map_congr_left fun address _ => hplace address
    have hone : sizes [tree] = tree.size := by
      rw [sizes, sizes, Nat.add_zero]
    have hrest := map_place_addressesFrom label (before ++ [tree]) trees
    rw [List.append_assoc, List.singleton_append, List.length_append, List.length_singleton,
      sizes_append, hone, ← Nat.add_assoc] at hrest
    rw [addressesFrom, List.map_append, hfirst, hrest, sizes, List.range'_append_1]

end

mutual

/-- The addresses are those where a node is. -/
theorem mem_addresses : (tree : OrderedTree α) → (address : Address) →
    (address ∈ tree.addresses ↔ (tree.at? address).isSome)
  | .node label children, [] => by simp [addresses]
  | .node label children, position :: address => by
    have hbelow := mem_addressesFrom 0 children position address
    rw [addresses, List.mem_cons, or_iff_right (List.cons_ne_nil _ _), hbelow, at?_cons]
    simp [OrderedTree.children]

theorem mem_addressesFrom (first : Nat) : (trees : List (OrderedTree α)) → (position : Nat) →
    (address : Address) → (position :: address ∈ addressesFrom first trees ↔
      first ≤ position ∧ (trees[position - first]?.bind (at? · address)).isSome)
  | [], position, address => by simp [addressesFrom]
  | tree :: trees, position, address => by
    have hhead := mem_addresses tree address
    have hrest := mem_addressesFrom (first + 1) trees position address
    have hfirst : position :: address ∈ (addresses tree).map (first :: ·) ↔
        position = first ∧ address ∈ tree.addresses := by
      rw [List.mem_map]
      constructor
      · rintro ⟨held, hheld, heq⟩
        obtain ⟨rfl, rfl⟩ := List.cons.inj heq
        exact ⟨rfl, hheld⟩
      · rintro ⟨rfl, hmem⟩
        exact ⟨address, hmem, rfl⟩
    rw [addressesFrom, List.mem_append, hfirst, hhead, hrest]
    rcases Nat.lt_trichotomy position first with hlt | rfl | hgt
    · have : ¬ first ≤ position ∧ ¬ first + 1 ≤ position ∧ position ≠ first := by omega
      simp [this]
    · simp
    · obtain ⟨more, rfl⟩ : ∃ more, position = first + 1 + more := ⟨position - (first + 1), by omega⟩
      have hsub : first + 1 + more - first = more + 1 := by omega
      have hne : first + 1 + more ≠ first := by omega
      simp [hsub, hne]
      omega

end

/-! ## Moves between addresses -/

/-- The node that has the node at the address as a child. -/
def parentOf (address : Address) : Option Address :=
  if address = [] then none else some address.dropLast

/-- The addresses of the children of the node at the address. -/
def childrenOf (tree : OrderedTree α) (address : Address) : List Address :=
  (List.range (((tree.at? address).map children).getD []).length).map fun position =>
    address ++ [position]

/-- The sibling right before. -/
def prevSiblingOf (address : Address) : Option Address :=
  match address.getLast? with
  | some (position + 1) => some (address.dropLast ++ [position])
  | _ => none

/-- The sibling right after. -/
def nextSiblingOf (tree : OrderedTree α) (address : Address) : Option Address :=
  match address.getLast? with
  | some position =>
    let next := address.dropLast ++ [position + 1]
    if (tree.at? next).isSome then some next else none
  | none => none

/-- The node and every node below it, in document order. -/
def descendantsOf (tree : OrderedTree α) (address : Address) : List Address :=
  (((tree.at? address).map addresses).getD []).map (address ++ ·)

theorem at?_concat {tree subtree : OrderedTree α} {address : Address}
    (h : tree.at? address = some subtree) (position : Nat) :
    tree.at? (address ++ [position]) = subtree.children[position]? := by
  rw [at?_append, h, Option.bind_some, at?_cons]
  simp

/-- Every node that is not the root is a child. -/
theorem exists_of_at?_concat {tree child : OrderedTree α} {address : Address} {position : Nat}
    (h : tree.at? (address ++ [position]) = some child) :
    ∃ subtree, tree.at? address = some subtree ∧ subtree.children[position]? = some child := by
  rw [at?_append] at h
  obtain ⟨subtree, hsubtree, hchild⟩ := Option.bind_eq_some_iff.mp h
  refine ⟨subtree, hsubtree, ?_⟩
  rw [at?_cons] at hchild
  simpa using hchild

theorem place_lt_size {tree subtree : OrderedTree α} {address : Address}
    (h : tree.at? address = some subtree) : tree.place address < tree.size := by
  have hmem : address ∈ tree.addresses := by
    rw [mem_addresses, h, Option.isSome_some]
  have hplace : tree.place address ∈ tree.addresses.map tree.place := List.mem_map_of_mem hmem
  rwa [map_place_addresses, List.mem_range] at hplace

/-- Every place is a node's. -/
theorem exists_place {tree : OrderedTree α} {place : Nat} (h : place < tree.size) :
    ∃ address subtree, tree.at? address = some subtree ∧ tree.place address = place := by
  have hmem : place ∈ tree.addresses.map tree.place := by
    rwa [map_place_addresses, List.mem_range]
  obtain ⟨address, haddress, hplace⟩ := List.mem_map.mp hmem
  rw [mem_addresses] at haddress
  obtain ⟨subtree, hsubtree⟩ := Option.isSome_iff_exists.mp haddress
  exact ⟨address, subtree, hsubtree, hplace⟩

/-- A node has all its ancestors before it. -/
theorem length_le_place (tree : OrderedTree α) (address : Address) {subtree : OrderedTree α}
    (h : tree.at? address = some subtree) : address.length ≤ tree.place address := by
  induction address generalizing tree with
  | nil => simp
  | cons position address ih =>
    rw [at?_cons] at h
    obtain ⟨child, hchild, hbelow⟩ := Option.bind_eq_some_iff.mp h
    have hlength := ih child hbelow
    rw [place_cons, hchild, List.length_cons]
    simp only [Option.map_some, Option.getD_some]
    omega

theorem sizes_pos {trees : List (OrderedTree α)} (h : trees ≠ []) : 0 < sizes trees := by
  obtain ⟨tree, trees, rfl⟩ := List.exists_cons_of_ne_nil h
  rw [sizes]
  exact Nat.add_pos_left tree.size_pos _

theorem length_le_sizes (trees : List (OrderedTree α)) : trees.length ≤ sizes trees := by
  induction trees with
  | nil => exact Nat.le_refl 0
  | cons tree trees ih =>
    have := tree.size_pos
    rw [List.length_cons, sizes]
    omega

theorem sizes_take_lt_iff (trees : List (OrderedTree α)) (position : Nat) :
    sizes (trees.take position) < sizes trees ↔ position < trees.length := by
  have hsplit := sizes_append (trees.take position) (trees.drop position)
  rw [List.take_append_drop] at hsplit
  rw [hsplit, Nat.lt_add_right_iff_pos]
  constructor
  · intro hpos
    by_contra hle
    rw [List.drop_eq_nil_of_le (Nat.not_lt.mp hle)] at hpos
    exact absurd hpos (Nat.lt_irrefl 0)
  · intro hlt
    exact sizes_pos fun hnil => absurd (List.drop_eq_nil_iff.mp hnil) (Nat.not_le.mpr hlt)

/-- The place of a child that is there lies in the subtree, and the place behind the last child does
not. -/
theorem place_child_lt_iff {tree subtree : OrderedTree α} {address : Address}
    (h : tree.at? address = some subtree) (position : Nat) :
    tree.place (address ++ [position]) < tree.place address + subtree.size ↔
      position < subtree.children.length := by
  rw [place_child h, ← sizes_take_lt_iff, size_eq]
  omega

/-- The next sibling has the place behind the subtree. -/
theorem place_child_succ {tree subtree child : OrderedTree α} {address : Address} {position : Nat}
    (h : tree.at? address = some subtree) (hchild : subtree.children[position]? = some child) :
    tree.place (address ++ [position + 1]) = tree.place (address ++ [position]) + child.size := by
  rw [place_child h, place_child h, sizes_take_succ hchild, ← Nat.add_assoc]

/-! ## Cursors -/

/-- The nodes around the focus at one level: the parent's label, the siblings before, the nearest
first, and the siblings after. -/
structure Frame (α : Type) where
  label : α
  before : List (OrderedTree α)
  after : List (OrderedTree α)

/-- A cursor stands on a node of a tree and moves to its first child, its next sibling or its
parent, where there is one. -/
structure Cursor (α : Type) where
  focus : OrderedTree α
  frames : List (Frame α)

namespace Cursor

variable (cursor : Cursor α)

def gotoFirstChild : Option (Cursor α) :=
  match cursor.focus with
  | .node _ [] => none
  | .node label (child :: after) => some ⟨child, ⟨label, [], after⟩ :: cursor.frames⟩

def gotoNextSibling : Option (Cursor α) :=
  match cursor.frames with
  | ⟨label, before, sibling :: after⟩ :: frames =>
    some ⟨sibling, ⟨label, cursor.focus :: before, after⟩ :: frames⟩
  | _ => none

def gotoParent : Option (Cursor α) :=
  match cursor.frames with
  | [] => none
  | ⟨label, before, after⟩ :: frames =>
    some ⟨.node label (before.reverse ++ cursor.focus :: after), frames⟩

/-- The nodes from the focus on, in document order. -/
def remaining : Nat := cursor.focus.size + (cursor.frames.map fun frame => sizes frame.after).sum

/-- The nodes behind the focus and all below it. -/
def behind : Nat := (cursor.frames.map fun frame => sizes frame.after).sum

variable {cursor} {next : Cursor α}

theorem behind_lt_remaining (cursor : Cursor α) : cursor.behind < cursor.remaining :=
  Nat.lt_add_of_pos_left cursor.focus.size_pos

theorem remaining_gotoFirstChild (h : cursor.gotoFirstChild = some next) :
    next.remaining < cursor.remaining := by
  obtain ⟨⟨label, children⟩, frames⟩ := cursor
  cases children with
  | nil => cases h
  | cons child after =>
    obtain rfl := Option.some.inj h
    simp only [remaining, List.map_cons, List.sum_cons, size, sizes]
    omega

theorem remaining_gotoNextSibling (h : cursor.gotoNextSibling = some next) :
    next.remaining = cursor.behind := by
  obtain ⟨focus, frames⟩ := cursor
  match frames, h with
  | ⟨label, before, sibling :: after⟩ :: frames, h =>
    obtain rfl := Option.some.inj h
    simp only [remaining, behind, List.map_cons, List.sum_cons, sizes]
    omega

/-- The parent of a last child has the same nodes behind it. -/
theorem behind_gotoParent (hlast : cursor.gotoNextSibling = none) (h : cursor.gotoParent = some next) :
    next.behind = cursor.behind := by
  obtain ⟨focus, frames⟩ := cursor
  match frames, hlast, h with
  | ⟨label, before, []⟩ :: frames, _, h =>
    obtain rfl := Option.some.inj h
    simp [behind, sizes]

theorem frames_gotoParent (h : cursor.gotoParent = some next) :
    next.frames.length < cursor.frames.length := by
  obtain ⟨focus, frames⟩ := cursor
  match frames, h with
  | ⟨label, before, after⟩ :: frames, h =>
    obtain rfl := Option.some.inj h
    exact Nat.lt_succ_self _

end Cursor

end OrderedTree

end Agentless
