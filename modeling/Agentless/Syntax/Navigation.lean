import Agentless.Library.Fallible
import Agentless.Syntax.FlatExact

/-!
# Navigation by the table

Every index of the table is the place of one node of the tree. The record there has the place of the
node's parent and the place behind its subtree, and with these two numbers the moves between indices
are the moves of the tree.
-/

namespace Agentless.Syntax

open OrderedTree

/-! ## The record of a node -/

theorem getElem?_flattenAll {trees : List (OrderedTree NodeData)} {position : Nat}
    {tree : OrderedTree NodeData} (h : trees[position]? = some tree) (parent start : Nat) {k : Nat}
    (hk : k < tree.size) :
    (flattenAll parent start trees)[sizes (trees.take position) + k]? =
      (flatten parent (start + sizes (trees.take position)) tree)[k]? := by
  induction trees generalizing position start with
  | nil => cases h
  | cons first trees ih =>
    rw [flattenAll]
    cases position with
    | zero =>
      obtain rfl : first = tree := by simpa using h
      rw [List.take_zero, sizes, Nat.zero_add, Nat.add_zero, List.getElem?_append_left]
      rwa [length_flatten]
    | succ position =>
      rw [List.getElem?_cons_succ] at h
      have hbehind : first.size + sizes (trees.take position) + k - first.size =
          sizes (trees.take position) + k := by
        omega
      rw [List.take_succ_cons, sizes, List.getElem?_append_right, length_flatten, hbehind, ih h,
        Nat.add_assoc]
      rw [length_flatten]
      omega

/-- The records of a subtree stand together in the table of the tree. -/
theorem getElem?_flatten {tree subtree : OrderedTree NodeData} {address : Address}
    (h : tree.at? address = some subtree) (parent start : Nat) :
    ∃ above, ∀ k < subtree.size, (flatten parent start tree)[tree.place address + k]? =
      (flatten above (start + tree.place address) subtree)[k]? := by
  induction address generalizing tree parent start with
  | nil =>
    obtain rfl : tree = subtree := by simpa using h
    refine ⟨parent, fun k _ => ?_⟩
    rw [place_nil, Nat.zero_add, Nat.add_zero]
  | cons position address ih =>
    obtain ⟨data, children⟩ := tree
    rw [at?_cons] at h
    obtain ⟨child, hchild, hbelow⟩ := Option.bind_eq_some_iff.mp h
    rw [OrderedTree.children] at hchild
    obtain ⟨above, habove⟩ := ih hbelow start (start + 1 + sizes (children.take position))
    refine ⟨above, fun k hk => ?_⟩
    have hplace : place (.node data children) (position :: address) =
        1 + (sizes (children.take position) + child.place address) := by
      rw [place_cons, OrderedTree.children, hchild]
      simp [Nat.add_assoc]
    have hinside : child.place address + k < child.size := by
      obtain ⟨below, found, hfound, rfl⟩ := exists_place hk
      have hat : child.at? (address ++ below) = some found := by
        rw [at?_append, hbelow, Option.bind_some, hfound]
      rw [← place_append hbelow]
      exact place_lt_size hat
    have hnext : place (.node data children) (position :: address) + k =
        sizes (children.take position) + (child.place address + k) + 1 := by
      omega
    rw [hnext, flatten, List.getElem?_cons_succ, getElem?_flattenAll hchild _ _ hinside, habove k hk,
      hplace]
    simp only [Nat.add_assoc]

theorem getElem?_flatten_root (tree : OrderedTree NodeData) (parent start : Nat) :
    (flatten parent start tree)[0]? = some (tree.label.record parent (start + tree.size)) := by
  obtain ⟨data, children⟩ := tree
  rw [flatten, size, ← Nat.add_assoc]
  rfl

theorem getElem?_flatten_child {tree subtree child : OrderedTree NodeData} {address : Address}
    {position : Nat} (h : tree.at? address = some subtree)
    (hchild : subtree.children[position]? = some child) :
    (flatten noParent 0 tree)[tree.place (address ++ [position])]? =
      some (child.label.record (tree.place address)
        (tree.place (address ++ [position]) + child.size)) := by
  obtain ⟨above, habove⟩ := getElem?_flatten h noParent 0
  have hinside : 1 + sizes (subtree.children.take position) < subtree.size := by
    have := place_lt_size ((at?_concat (at?_nil subtree) position).trans hchild)
    rw [List.nil_append, place_cons, hchild] at this
    simpa using this
  rw [place_child h, Nat.add_assoc, habove _ hinside]
  obtain ⟨data, children⟩ := subtree
  rw [flatten, Nat.add_comm 1, List.getElem?_cons_succ, Nat.zero_add]
  refine (getElem?_flattenAll hchild _ _ child.size_pos).trans ?_
  rw [getElem?_flatten_root, OrderedTree.children]
  simp only [Nat.add_assoc, Nat.add_comm 1]

/-! ## The moves -/

section Moves

variable {tree : OrderedTree NodeData} {flat : Flat}

/-- The table of a tree that is not too large. -/
structure TableOf (tree : OrderedTree NodeData) (flat : Flat) : Prop where
  records : flat.records = flatten noParent 0 tree
  size : tree.size ≤ maxIndex

variable (htable : TableOf tree flat)
include htable

theorem TableOf.root : flat.records[0]? = some (tree.label.record noParent tree.size) := by
  rw [htable.records, getElem?_flatten_root, Nat.zero_add]

theorem TableOf.child {subtree child : OrderedTree NodeData} {address : Address} {position : Nat}
    (h : tree.at? address = some subtree) (hchild : subtree.children[position]? = some child) :
    flat.records[tree.place (address ++ [position])]? =
      some (child.label.record (tree.place address)
        (tree.place (address ++ [position]) + child.size)) := by
  rw [htable.records, getElem?_flatten_child h hchild]

/-- Every node has a record with its own data and the end of its subtree. -/
theorem TableOf.record {subtree : OrderedTree NodeData} {address : Address}
    (h : tree.at? address = some subtree) :
    ∃ parent, flat.records[tree.place address]? =
      some (subtree.label.record parent (tree.place address + subtree.size)) := by
  rcases List.eq_nil_or_concat' address with rfl | ⟨above, position, rfl⟩
  · obtain rfl : tree = subtree := by simpa using h
    refine ⟨noParent, ?_⟩
    rw [place_nil, Nat.zero_add]
    exact htable.root
  · obtain ⟨parent, hparent, hchild⟩ := exists_of_at?_concat h
    exact ⟨_, htable.child hparent hchild⟩

theorem TableOf.place_ne_noParent {subtree : OrderedTree NodeData} {address : Address}
    (h : tree.at? address = some subtree) : tree.place address ≠ noParent := by
  have hplace := place_lt_size h
  have hsize := htable.size
  unfold noParent
  omega

theorem TableOf.parent_root : flat.parent 0 = some none := by
  unfold Flat.parent
  rw [htable.root]
  simp [NodeData.record]

theorem TableOf.parent_child {subtree child : OrderedTree NodeData} {address : Address}
    {position : Nat} (h : tree.at? address = some subtree)
    (hchild : subtree.children[position]? = some child) :
    flat.parent (tree.place (address ++ [position])) = some (some (tree.place address)) := by
  unfold Flat.parent
  rw [htable.child h hchild]
  simp [NodeData.record, htable.place_ne_noParent h]

theorem TableOf.parent {subtree : OrderedTree NodeData} {address : Address}
    (h : tree.at? address = some subtree) :
    flat.parent (tree.place address) = some ((parentOf address).map tree.place) := by
  rcases List.eq_nil_or_concat' address with rfl | ⟨above, position, rfl⟩
  · rw [place_nil]
    exact htable.parent_root
  · obtain ⟨parent, hparent, hchild⟩ := exists_of_at?_concat h
    rw [htable.parent_child hparent hchild]
    simp [parentOf]

theorem TableOf.descendants {subtree : OrderedTree NodeData} {address : Address}
    (h : tree.at? address = some subtree) :
    flat.descendants (tree.place address) =
      some ((tree.descendantsOf address).map tree.place) := by
  obtain ⟨parent, hrecord⟩ := htable.record h
  have hplaces : (tree.descendantsOf address).map tree.place =
      List.range' (tree.place address) subtree.size := by
    rw [descendantsOf, h, Option.map_some, Option.getD_some, List.map_map,
      List.range'_eq_map_range, ← map_place_addresses, List.map_map]
    exact List.map_congr_left fun below _ => place_append h below
  unfold Flat.descendants
  rw [hrecord, hplaces]
  simp [NodeData.record]

theorem TableOf.isLeaf {subtree : OrderedTree NodeData} {address : Address}
    (h : tree.at? address = some subtree) :
    flat.isLeaf (tree.place address) = some (tree.childrenOf address).isEmpty := by
  obtain ⟨parent, hrecord⟩ := htable.record h
  have hsize : subtree.size = 1 ↔ subtree.children = [] := by
    rw [size_eq]
    constructor
    · intro hone
      by_contra hne
      have := sizes_pos hne
      omega
    · intro hnil
      rw [hnil, sizes]
  unfold Flat.isLeaf childrenOf
  rw [hrecord, h]
  refine congrArg some (Bool.eq_iff_iff.mpr ?_)
  simp [NodeData.record, hsize]

theorem TableOf.siblings {subtree : OrderedTree NodeData} {address : Address}
    (h : tree.at? address = some subtree) (position fuel : Nat)
    (hfuel : subtree.children.length ≤ position + fuel) :
    flat.siblings (tree.place address + subtree.size) fuel
        (tree.place (address ++ [position])) =
      some ((List.range' position (subtree.children.length - position)).map fun position =>
        tree.place (address ++ [position])) := by
  have hinside := place_child_lt_iff h
  induction fuel generalizing position with
  | zero =>
    rw [Nat.add_zero] at hfuel
    unfold Flat.siblings
    rw [if_neg ((hinside position).not.mpr (Nat.not_lt.mpr hfuel)), Nat.sub_eq_zero_of_le hfuel]
    rfl
  | succ fuel ih =>
    unfold Flat.siblings
    by_cases hlt : position < subtree.children.length
    · have hchild : subtree.children[position]? = some subtree.children[position] :=
        List.getElem?_eq_getElem hlt
      have hrest : subtree.children.length - position =
          subtree.children.length - (position + 1) + 1 := by
        omega
      rw [if_pos ((hinside position).mpr hlt), htable.child h hchild]
      simp only [NodeData.record, Option.bind_eq_bind, Option.bind_some,
        ← place_child_succ h hchild]
      rw [ih (position + 1) (by omega), hrest, List.range'_succ]
      rfl
    · rw [if_neg ((hinside position).not.mpr hlt), Nat.sub_eq_zero_of_le (Nat.not_lt.mp hlt)]
      rfl

theorem TableOf.children {subtree : OrderedTree NodeData} {address : Address}
    (h : tree.at? address = some subtree) :
    flat.children (tree.place address) = some ((tree.childrenOf address).map tree.place) := by
  obtain ⟨parent, hrecord⟩ := htable.record h
  have hfirst : tree.place address + 1 = tree.place (address ++ [0]) := by
    rw [place_child h, List.take_zero, sizes]
  have hfuel : subtree.children.length ≤ tree.place address + subtree.size := by
    have hlength := length_le_sizes subtree.children
    rw [size_eq]
    omega
  unfold Flat.children childrenOf
  rw [hrecord, h, hfirst]
  simp only [NodeData.record, Option.bind_eq_bind, Option.bind_some]
  rw [htable.siblings h 0 _ (by omega)]
  simp [List.range_eq_range']

theorem TableOf.nextSibling {subtree : OrderedTree NodeData} {address : Address}
    (h : tree.at? address = some subtree) :
    flat.nextSibling (tree.place address) =
      some ((tree.nextSiblingOf address).map tree.place) := by
  rcases List.eq_nil_or_concat' address with rfl | ⟨above, position, rfl⟩
  · unfold Flat.nextSibling
    rw [place_nil, htable.parent_root]
    rfl
  · obtain ⟨parent, hparent, hchild⟩ := exists_of_at?_concat h
    obtain ⟨higher, hrecord⟩ := htable.record hparent
    unfold Flat.nextSibling nextSiblingOf
    rw [htable.parent_child hparent hchild, List.getLast?_concat, List.dropLast_concat]
    simp only [Option.bind_eq_bind, Option.bind_some, htable.child hparent hchild, hrecord,
      NodeData.record, ← place_child_succ hparent hchild, place_child_lt_iff hparent,
      at?_concat hparent, isSome_getElem?]
    split_ifs <;> rfl

theorem TableOf.childAbove {subtree : OrderedTree NodeData} {address : Address} {position : Nat}
    (h : tree.at? address = some subtree) (below : Address) {found : OrderedTree NodeData}
    (hfound : tree.at? (address ++ [position] ++ below) = some found) (fuel : Nat)
    (hfuel : below.length < fuel) :
    flat.childAbove (tree.place address) fuel (tree.place (address ++ [position] ++ below)) =
      some (some (tree.place (address ++ [position]))) := by
  induction fuel generalizing below found with
  | zero => omega
  | succ fuel ih =>
    have hne : tree.place (address ++ [position] ++ below) ≠ tree.place address := by
      rw [List.append_assoc, place_append h, List.singleton_append, place_cons]
      omega
    unfold Flat.childAbove
    rw [if_neg hne]
    rcases List.eq_nil_or_concat' below with rfl | ⟨less, last, rfl⟩
    · rw [List.append_nil] at hfound ⊢
      obtain ⟨parent, hparent, hchild⟩ := exists_of_at?_concat hfound
      simp [htable.parent_child hparent hchild]
    · rw [← List.append_assoc] at hfound
      obtain ⟨parent, hparent, hchild⟩ := exists_of_at?_concat hfound
      have hup : tree.place (address ++ [position] ++ less) ≠ tree.place address := by
        rw [List.append_assoc, place_append h, List.singleton_append, place_cons]
        omega
      have hrest := ih less hparent (by simpa using hfuel)
      rw [← List.append_assoc, htable.parent_child hparent hchild]
      simp only [Option.bind_eq_bind, Option.bind_some, if_neg hup, hrest]

theorem TableOf.prevSibling {subtree : OrderedTree NodeData} {address : Address}
    (h : tree.at? address = some subtree) :
    flat.prevSibling (tree.place address) = some ((prevSiblingOf address).map tree.place) := by
  rcases List.eq_nil_or_concat' address with rfl | ⟨above, position, rfl⟩
  · unfold Flat.prevSibling
    rw [place_nil, htable.parent_root]
    rfl
  · obtain ⟨parent, hparent, hchild⟩ := exists_of_at?_concat h
    have hplace := place_child hparent position
    unfold Flat.prevSibling prevSiblingOf
    rw [htable.parent_child hparent hchild, List.getLast?_concat, List.dropLast_concat]
    simp only [Option.bind_eq_bind, Option.bind_some]
    rw [if_neg (by omega)]
    cases position with
    | zero =>
      have hfirst : tree.place (above ++ [0]) - 1 = tree.place above := by
        rw [hplace, List.take_zero, sizes]
        omega
      unfold Flat.childAbove
      rw [if_pos hfirst]
      rfl
    | succ position =>
      have hlt : position < parent.children.length := by
        obtain ⟨hlt, -⟩ := List.getElem?_eq_some_iff.mp hchild
        omega
      have hsibling := List.getElem?_eq_getElem hlt
      have hat := (at?_concat hparent position).trans hsibling
      -- the node before is the last one of the sibling's subtree
      obtain ⟨below, found, hfound, hlast⟩ := exists_place
        (Nat.sub_lt (parent.children[position]).size_pos Nat.one_pos)
      have hnode : tree.place (above ++ [position + 1]) - 1 =
          tree.place (above ++ [position] ++ below) := by
        have := (parent.children[position]).size_pos
        rw [place_append hat, hlast, place_child_succ hparent hsibling]
        omega
      have hbelow : tree.at? (above ++ [position] ++ below) = some found := by
        rw [at?_append, hat, Option.bind_some, hfound]
      have hfuel : below.length < tree.place (above ++ [position + 1]) := by
        have hlength := length_le_place tree _ hbelow
        rw [← hnode, List.length_append] at hlength
        omega
      rw [hnode, htable.childAbove hparent below hbelow _ hfuel]
      rfl

end Moves

/-! ## The table of a source -/

/-- The lines of a source in range start in range. -/
theorem exists_lineStartsFrom (index : Nat) (bytes : Bytes) (h : index + bytes.length ≤ maxIndex) :
    ∃ starts, lineStartsFrom index bytes = .ok starts := by
  induction bytes generalizing index with
  | nil => exact ⟨[], rfl⟩
  | cons byte bytes ih =>
    rw [List.length_cons] at h
    obtain ⟨starts, hstarts⟩ := ih (index + 1) (by omega)
    have hindex : indexU32 (index + 1) = .ok (index + 1) := if_pos (by omega)
    unfold lineStartsFrom
    rw [hstarts, hindex]
    split_ifs
    · exact ⟨_, rfl⟩
    · exact ⟨_, rfl⟩

theorem build_eq_ok_iff {tree : OrderedTree NodeData} {source : Text} {flat : Flat} :
    Flat.build tree source = .ok flat ↔ (Fits tree ∧ tree.size ≤ maxIndex) ∧
      flat.records = flatten noParent 0 tree ∧
      (∀ record ∈ flat.records, onBoundaries source record) ∧
      lineStarts source = .ok flat.lineStarts := by
  unfold Flat.build
  rw [Except.bind_eq_ok_iff, records_eq]
  constructor
  · rintro ⟨records, hrecords, hflat⟩
    split_ifs at hrecords with hfits
    obtain rfl := Except.ok.inj hrecords
    split at hflat
    next index hindex =>
      obtain ⟨_, _, hflat⟩ := Except.bind_eq_ok_iff.mp hflat
      cases hflat
    next hall =>
      obtain ⟨starts, hstarts, hflat⟩ := Except.bind_eq_ok_iff.mp hflat
      obtain rfl := Except.ok.inj hflat
      exact ⟨hfits, rfl, by simpa using hall, hstarts⟩
  · rintro ⟨hfits, hrecords, hall, hstarts⟩
    refine ⟨_, if_pos hfits, ?_⟩
    have hnone : (flatten noParent 0 tree).findIdx? (fun record => !onBoundaries source record) =
        none := by
      simpa [← hrecords] using hall
    rw [hnone]
    refine Except.bind_eq_ok_iff.mpr ⟨_, hstarts, ?_⟩
    rw [← hrecords]
    rfl

theorem tableOf_build {tree : OrderedTree NodeData} {source : Text} {flat : Flat}
    (h : Flat.build tree source = .ok flat) : TableOf tree flat := by
  obtain ⟨⟨-, hsize⟩, hrecords, -⟩ := build_eq_ok_iff.mp h
  exact ⟨hrecords, hsize⟩

/-- The node starts and ends between two characters. -/
def NodeData.OnBoundaries (source : Text) (data : NodeData) : Prop :=
  isCharBoundary (utf8 source) data.start ∧ isCharBoundary (utf8 source) data.stop

/-- A source that is in range has a table exactly when the nodes of its tree are, can be counted, and
lie between its characters. -/
theorem exists_build_iff {tree : OrderedTree NodeData} {source : Text}
    (h : (utf8 source).length ≤ maxIndex) :
    (∃ flat, Flat.build tree source = .ok flat) ↔ Fits tree ∧ tree.size ≤ maxIndex ∧
      ∀ address subtree, tree.at? address = some subtree →
        subtree.label.OnBoundaries source := by
  have hboundaries (data : NodeData) (parent subtreeEnd : Nat) :
      onBoundaries source (data.record parent subtreeEnd) ↔ data.OnBoundaries source := by
    rw [onBoundaries, Bool.and_eq_true]
    rfl
  constructor
  · rintro ⟨flat, hflat⟩
    obtain ⟨⟨hfits, hsize⟩, hrecords, hall, -⟩ := build_eq_ok_iff.mp hflat
    refine ⟨hfits, hsize, fun address subtree hat => ?_⟩
    obtain ⟨parent, hrecord⟩ := TableOf.record ⟨hrecords, hsize⟩ hat
    exact (hboundaries _ _ _).mp (hall _ (List.mem_of_getElem? hrecord))
  · rintro ⟨hfits, hsize, hall⟩
    obtain ⟨starts, hstarts⟩ := exists_lineStartsFrom 0 (utf8 source) (by omega)
    have htable : TableOf tree ⟨flatten noParent 0 tree, 0 :: starts⟩ := ⟨rfl, hsize⟩
    refine ⟨⟨flatten noParent 0 tree, 0 :: starts⟩,
      build_eq_ok_iff.mpr ⟨⟨hfits, hsize⟩, rfl, ?_, ?_⟩⟩
    · intro record hrecord
      obtain ⟨place, hplace⟩ := List.getElem?_of_mem hrecord
      obtain ⟨hlt, -⟩ := List.getElem?_eq_some_iff.mp hplace
      rw [length_flatten] at hlt
      obtain ⟨address, subtree, hat, rfl⟩ := exists_place hlt
      obtain ⟨parent, hfound⟩ := htable.record hat
      obtain rfl : record = _ := Option.some.inj (hplace.symm.trans hfound)
      exact (hboundaries _ _ _).mpr (hall address subtree hat)
    · rw [lineStarts, hstarts]
      rfl

/-- The table represents the tree. Its indices are the places of the nodes in document order, and at
the place of every node each move of the table goes to the place of the node where the tree's own
move goes. A source in range has such a table unless its tree is too large or cuts a character. -/
theorem flat_navigation (tree : OrderedTree NodeData) (source : Text) :
    ((utf8 source).length ≤ maxIndex →
      ((∃ flat, Flat.build tree source = .ok flat) ↔ Fits tree ∧ tree.size ≤ maxIndex ∧
        ∀ address subtree, tree.at? address = some subtree →
          subtree.label.OnBoundaries source)) ∧
    ∀ flat, Flat.build tree source = .ok flat →
      tree.addresses.map tree.place = List.range flat.records.length ∧
      ∀ address subtree, tree.at? address = some subtree →
        (∃ parent, flat.records[tree.place address]? =
          some (subtree.label.record parent (tree.place address + subtree.size))) ∧
        flat.parent (tree.place address) = some ((parentOf address).map tree.place) ∧
        flat.children (tree.place address) = some ((tree.childrenOf address).map tree.place) ∧
        flat.nextSibling (tree.place address) =
          some ((tree.nextSiblingOf address).map tree.place) ∧
        flat.prevSibling (tree.place address) = some ((prevSiblingOf address).map tree.place) ∧
        flat.descendants (tree.place address) =
          some ((tree.descendantsOf address).map tree.place) ∧
        flat.isLeaf (tree.place address) = some (tree.childrenOf address).isEmpty := by
  refine ⟨exists_build_iff, fun flat hflat => ?_⟩
  have htable := tableOf_build hflat
  refine ⟨?_, fun address subtree hat => ?_⟩
  · rw [map_place_addresses, htable.records, length_flatten]
  · exact ⟨htable.record hat, htable.parent hat, htable.children hat, htable.nextSibling hat,
      htable.prevSibling hat, htable.descendants hat, htable.isLeaf hat⟩

end Agentless.Syntax
