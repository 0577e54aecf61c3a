import Agentless.Facts.RustScopes

/-!
# Rust locals by environment

A resolver that walks down a Rust tree with the names in scope. Entering a child, it forgets the
surroundings where the node is an item and adds what the node opens for this child: parameters and
`for` patterns for the body, `let` patterns for the statements behind, the patterns of `let`
conditions for what they guard, and an arm's pattern for its guard and its value.
-/

namespace Agentless.Facts.RustScopes

open OrderedTree

/-- The siblings before a node. -/
def earlierSiblings (node : NodeId) : List NodeId :=
  match node.getLast? with
  | some position => (List.range position).map fun before => node.dropLast ++ [before]
  | none => []

section Resolver

variable (tree : Tree)

/-- The names of the pattern that hangs under a node. -/
def heldNames (node : NodeId) : List NodeId :=
  (field tree node .pattern).toList.flatMap (patternNames tree)

def parameterNames (node : NodeId) : List NodeId :=
  (field tree node .parameters).toList.flatMap fun list =>
    (namedChildren tree list).flatMap (patternNames tree)

def armNames (arm : NodeId) : List NodeId :=
  (armPattern tree arm).toList.flatMap (patternNames tree)

/-- The `let` conditions of a node, with wrappers only on the way. -/
def openConditions (node : NodeId) : List NodeId :=
  (tree.descendantsOf node).filter fun condition =>
    is tree condition .letCondition &&
      ((ancestorsOf condition).filter node.isPrefixOf).all fun above =>
        isAny tree above conditionWrappers

/-- The parameters of a function or a closure and the pattern of a `for`, in its body. -/
def openedInBody (node child : NodeId) : List NodeId :=
  if field tree node .body ≠ some child then []
  else if is tree node .functionItem || is tree node .closureExpression then
    parameterNames tree node
  else if is tree node .forExpression then heldNames tree node
  else []

/-- The `let` patterns of the statements before. -/
def openedByLet (child : NodeId) : List NodeId :=
  (earlierSiblings child).flatMap fun before =>
    if is tree before .letDeclaration then heldNames tree before else []

/-- The patterns of the `let` conditions before, but not in what stands behind the block of an
`if`. -/
def openedByCondition (node child : NodeId) : List NodeId :=
  if is tree node .ifExpression &&
      (field tree node .consequence).any fun block => (earlierSiblings child).contains block then []
  else
    (earlierSiblings child).flatMap fun before =>
      (openConditions tree before).flatMap (heldNames tree)

/-- An arm's pattern, behind what is matched. -/
def openedByArm (node child : NodeId) : List NodeId :=
  if is tree node .matchArm &&
      (field tree node .pattern).any fun matched => (earlierSiblings child).contains matched then
    armNames tree node
  else []

/-- An arm's pattern, behind the pattern in what is matched. -/
def openedInMatched (node child : NodeId) : List NodeId :=
  match parentOf node with
  | none => []
  | some arm =>
    if is tree arm .matchArm && field tree arm .pattern = some node &&
        (armPattern tree arm).any fun part => (earlierSiblings child).contains part then
      armNames tree arm
    else []

/-- The names that a node opens for a child. -/
def opened (node child : NodeId) : List NodeId :=
  openedInBody tree node child ++ openedByLet tree child ++ openedByCondition tree node child ++
    openedByArm tree node child ++ openedInMatched tree node child

/-- The names in scope at the end of the steps down from a node. -/
def environmentFrom (node : NodeId) (names : List Text) : List Nat → List Text
  | [] => names
  | position :: steps =>
    let child := node ++ [position]
    let kept := if isAny tree node owners then [] else names
    environmentFrom child ((opened tree node child).map (text tree) ++ kept) steps

def environment (node : NodeId) : List Text := environmentFrom tree [] [] node

/-! ## Trees of the grammar -/

/-- What the grammar and the parser give: the root is a file, identifiers are tokens, parameter
lists and match patterns are no items, and behind the block of an `if` comes no condition. -/
structure Shaped : Prop where
  root : isAny tree [] conditionWrappers = false
  token : ∀ node ∈ tree.addresses, is tree node .identifier → tree.childrenOf node = []
  parameters : ∀ node ∈ tree.addresses, ∀ list ∈ field tree node .parameters,
    isAny tree list owners = false
  matched : ∀ node ∈ tree.addresses, is tree node .matchArm →
    ∀ matched ∈ field tree node .pattern, isAny tree matched owners = false
  block : ∀ node ∈ tree.addresses, is tree node .ifExpression →
    ∀ block ∈ field tree node .consequence, ∀ child ∈ tree.childrenOf node,
      block ∈ earlierSiblings child → isAny tree child conditionWrappers = false

/-- An identifier in use position, outside patterns and opaque nodes. -/
structure Use (node : NodeId) : Prop where
  identifier : is tree node .identifier
  position : usePosition tree node
  member : namesMember tree node = false
  pattern : inPattern tree node = false
  opaque_ : (place tree node).opaque_ = false

end Resolver

end Agentless.Facts.RustScopes

/-!
## Items between a name and its use

The owner of a node is the innermost item around it, and a name and a use have the same owner when
no item stands between the node that opens the name and either of them.
-/

namespace Agentless.Facts.RustScopes

open OrderedTree

variable {tree : Tree} {node : NodeId}

/-! ## Kinds -/

theorem is_iff {kind : RustKind} :
    is tree node kind ↔ ∃ subtree, tree.at? node = some subtree ∧ subtree.label.kind = kind := by
  simp [is, Option.any_eq_true]

theorem isAny_iff {kinds : List RustKind} : isAny tree node kinds ↔
    ∃ subtree, tree.at? node = some subtree ∧ subtree.label.kind ∈ kinds := by
  simp [isAny, Option.any_eq_true]

theorem isAny_of_is {kind : RustKind} {kinds : List RustKind} (h : is tree node kind) :
    isAny tree node kinds = kinds.contains kind := by
  obtain ⟨subtree, hat, rfl⟩ := is_iff.mp h
  simp [isAny, hat]

theorem isAny_disjoint {kinds others : List RustKind} (h : isAny tree node kinds)
    (hdisjoint : ∀ kind ∈ kinds, kind ∉ others) : isAny tree node others = false := by
  obtain ⟨subtree, hat, hkind⟩ := isAny_iff.mp h
  simp [isAny, hat, hdisjoint _ hkind]

theorem is_unique {kind other : RustKind} (h : is tree node kind) (h' : is tree node other) :
    kind = other := by
  obtain ⟨subtree, hat, rfl⟩ := is_iff.mp h
  obtain ⟨subtree', hat', rfl⟩ := is_iff.mp h'
  rw [Option.some.inj (hat.symm.trans hat')]

theorem keyed_of_is {α : Type} {kind : RustKind} {table : List (RustKind × α)}
    (h : is tree node kind) :
    keyed tree node table = (table.find? fun row => kind = row.1).map Prod.snd := by
  obtain ⟨subtree, hat, rfl⟩ := is_iff.mp h
  simp [keyed, is, hat]

theorem exists_of_keyed {α : Type} {table : List (RustKind × α)} {value : α}
    (h : keyed tree node table = some value) :
    ∃ kind, (kind, value) ∈ table ∧ is tree node kind := by
  obtain ⟨row, hrow, rfl⟩ := Option.map_eq_some_iff.mp h
  exact ⟨row.1, List.mem_of_find?_eq_some hrow, by simpa using List.find?_some hrow⟩

/-! ## Fields -/

theorem exists_of_field {key : Field} {child : NodeId} (h : field tree node key = some child) :
    ∃ position, child = node ++ [position] ∧ (tree.at? child).isSome :=
  mem_childrenOf.mp (List.mem_of_find?_eq_some h)

theorem exists_of_mem_namedChildren {child : NodeId} (h : child ∈ namedChildren tree node) :
    ∃ position, child = node ++ [position] ∧ (tree.at? child).isSome :=
  mem_childrenOf.mp (List.mem_filter.mp h).1

theorem exists_of_armPattern {part : NodeId} (h : armPattern tree node = some part) :
    ∃ matched position, field tree node .pattern = some matched ∧ part = matched ++ [position] ∧
      (tree.at? part).isSome := by
  obtain ⟨matched, hmatched, hpart⟩ := Option.bind_eq_some_iff.mp h
  obtain ⟨position, heq, hin⟩ := exists_of_mem_namedChildren (List.mem_of_find?_eq_some hpart)
  exact ⟨matched, position, hmatched, heq, hin⟩

/-! ## Ways without an item -/

/-- No item holds the end of the steps down from the node, from the node on. -/
def Clear (tree : Tree) (node : NodeId) (steps : List Nat) : Prop :=
  ∀ above, above <+: steps → above ≠ steps → isAny tree (node ++ above) owners = false

@[simp] theorem clear_nil : Clear tree node [] := by
  intro above hbegin hne
  exact absurd (List.prefix_nil.mp hbegin) hne

theorem clear_append {steps more : List Nat} :
    Clear tree node (steps ++ more) ↔ Clear tree node steps ∧ Clear tree (node ++ steps) more := by
  constructor
  · intro h
    refine ⟨?_, ?_⟩
    · intro above hbegin hne
      refine h above (hbegin.trans (List.prefix_append steps more)) ?_
      rintro rfl
      exact hne (hbegin.eq_of_length_le (by simp))
    · intro above hbegin hne
      have hlong := (List.prefix_append_right_inj steps).mpr hbegin
      have := h (steps ++ above) hlong (by simpa using hne)
      rwa [← List.append_assoc] at this
  · rintro ⟨hsteps, hmore⟩ above hbegin hne
    rcases List.prefix_or_prefix_of_prefix hbegin (List.prefix_append steps more) with
      h | ⟨rest, rfl⟩
    · by_cases heq : above = steps
      · subst heq
        have := hmore [] (List.nil_prefix) (by rintro rfl; simp at hne)
        simpa using this
      · exact hsteps above h heq
    · have := hmore rest ((List.prefix_append_right_inj steps).mp hbegin) (by simpa using hne)
      rwa [List.append_assoc] at this

theorem clear_cons {position : Nat} {steps : List Nat} :
    Clear tree node (position :: steps) ↔
      isAny tree node owners = false ∧ Clear tree (node ++ [position]) steps := by
  have hone : Clear tree node [position] ↔ isAny tree node owners = false := by
    constructor
    · intro h
      simpa using h [] (List.nil_prefix) (by simp)
    · intro h above hbegin hne
      rcases above with _ | ⟨first, above⟩
      · simpa using h
      · grind
  rw [← List.singleton_append, clear_append, hone]

theorem clear_of_between {kinds : List RustKind} {steps : List Nat}
    (hkinds : ∀ kind ∈ kinds, kind ∉ owners)
    (h : ∀ above, node <+: above → above <+: node ++ steps → above ≠ node ++ steps →
      isAny tree above kinds) : Clear tree node steps := by
  intro above hbegin hne
  refine isAny_disjoint (h (node ++ above) (List.prefix_append node above) ?_ ?_) hkinds
  · exact (List.prefix_append_right_inj node).mpr hbegin
  · simpa using hne

/-! ## Owners -/

theorem placeFrom_append (above : Place) (steps more : List Nat) :
    placeFrom tree node above (steps ++ more) =
      placeFrom tree (node ++ steps) (placeFrom tree node above steps) more := by
  induction steps generalizing node above with
  | nil => simp [placeFrom]
  | cons position steps ih => simp [placeFrom, ih]

theorem place_append (steps : List Nat) :
    place tree (node ++ steps) = placeFrom tree node (place tree node) steps := by
  rw [place, placeFrom_append, place, List.nil_append]

theorem place_concat (position : Nat) : place tree (node ++ [position]) =
    (place tree node).below tree node (node ++ [position]) := by
  rw [place_append]
  rfl

/-- The owner of a child of the node. -/
def innerOwner (tree : Tree) (node : NodeId) : Option NodeId :=
  if isAny tree node owners then some node else (place tree node).owner

theorem owner_concat (position : Nat) :
    (place tree (node ++ [position])).owner = innerOwner tree node := by
  rw [place_concat]
  rfl

theorem owner_placeFrom (above : Place) (steps : List Nat) :
    (Clear tree node steps ∧ (placeFrom tree node above steps).owner = above.owner) ∨
      (¬ Clear tree node steps ∧
        ∃ below, (placeFrom tree node above steps).owner = some (node ++ below)) := by
  induction steps generalizing node above with
  | nil => exact .inl ⟨clear_nil, rfl⟩
  | cons position steps ih =>
    rw [placeFrom, clear_cons]
    rcases ih (above.below tree node (node ++ [position])) with
      ⟨hclear, howner⟩ | ⟨hclear, below, howner⟩
    · cases hitem : isAny tree node owners with
      | false => exact .inl ⟨⟨rfl, hclear⟩, by rw [howner]; simp [Place.below, hitem]⟩
      | true =>
        refine .inr ⟨by simp, [], ?_⟩
        rw [howner]
        simp [Place.below, hitem]
    · refine .inr ⟨fun h => hclear h.2, position :: below, ?_⟩
      rw [howner]
      simp

theorem length_owner_lt {owner : NodeId} (h : (place tree node).owner = some owner) :
    owner.length < node.length := by
  induction node using List.reverseRecOn with
  | nil => cases h
  | append_singleton node position ih =>
    rw [owner_concat, innerOwner] at h
    rw [List.length_append, List.length_singleton]
    split_ifs at h with hitem
    · rw [Option.some.inj h]
      exact Nat.lt_succ_self _
    · exact Nat.lt_succ_of_lt (ih h)

/-- A node below has the owner of a child exactly when no item stands between. -/
theorem owner_below_iff {position : Nat} {steps : List Nat} :
    (place tree (node ++ position :: steps)).owner = innerOwner tree node ↔
      Clear tree (node ++ [position]) steps := by
  have hsplit : node ++ position :: steps = (node ++ [position]) ++ steps := by simp
  rw [hsplit, place_append]
  rcases owner_placeFrom (place tree (node ++ [position])) steps with
    ⟨hclear, howner⟩ | ⟨hclear, below, howner⟩
  · rw [howner, owner_concat]
    exact iff_of_true rfl hclear
  · refine iff_of_false ?_ hclear
    rw [howner]
    intro heq
    have hlength : (node ++ [position] ++ below).length ≤ node.length := by
      rw [innerOwner] at heq
      split_ifs at heq with hitem
      · exact (congrArg List.length (Option.some.inj heq)).le
      · exact (length_owner_lt heq.symm).le
    rw [List.length_append, List.length_append, List.length_singleton] at hlength
    omega

/-! ## The names of a pattern -/

theorem not_owner_of_mem_subPatterns {part : NodeId} (h : part ∈ subPatterns tree node) :
    isAny tree node owners = false := by
  rw [subPatterns] at h
  split_ifs at h with hnested htyped hfield
  · exact isAny_disjoint hnested (by decide)
  · exact isAny_disjoint htyped (by decide)
  · cases h
  · rw [isAny_of_is (by simpa using hfield : is tree node .fieldPattern)]
    decide

mutual

/-- A pattern holds each name that it binds, with no item on the way. -/
theorem mem_patternNamesFrom {name : NodeId} : (above : NodeId) → (pattern : Tree) →
    tree.at? above = some pattern → name ∈ patternNamesFrom tree above pattern →
    ∃ below, name = above ++ below ∧ (tree.at? name).isSome ∧ Clear tree above below
  | above, .node label parts, hat, h => by
    rw [patternNamesFrom] at h
    have hself (hname : name ∈ [above]) :
        ∃ below, name = above ++ below ∧ (tree.at? name).isSome ∧ Clear tree above below := by
      obtain rfl := List.mem_singleton.mp hname
      exact ⟨[], by simp, by simp [hat], clear_nil⟩
    split_ifs at h
    · cases h
    · exact hself h
    · exact hself h
    · obtain ⟨position, below, hin, rfl, hsome, hclear⟩ :=
        mem_patternNamesIn (subPatterns tree above) above 0 parts
          (fun position part hpart => by rw [at?_concat hat, Nat.zero_add]; exact hpart) h
      exact ⟨position :: below, rfl, hsome,
        clear_cons.mpr ⟨not_owner_of_mem_subPatterns hin, hclear⟩⟩

theorem mem_patternNamesIn {name : NodeId} (pending : List NodeId) (above : NodeId) :
    (first : Nat) → (parts : List Tree) →
    (∀ position part, parts[position]? = some part →
      tree.at? (above ++ [first + position]) = some part) →
    name ∈ patternNamesIn tree pending above first parts →
    ∃ position below, above ++ [position] ∈ pending ∧ name = above ++ position :: below ∧
      (tree.at? name).isSome ∧ Clear tree (above ++ [position]) below
  | first, [], _, h => by cases h
  | first, part :: parts, hparts, h => by
    rw [patternNamesIn, List.mem_append] at h
    rcases h with h | h
    · refine mem_patternNamesIn pending above (first + 1) parts ?_ h
      intro position part hpart
      rw [Nat.add_assoc, Nat.add_comm 1]
      exact hparts (position + 1) part hpart
    · split_ifs at h with hin
      · obtain ⟨below, rfl, hsome, hclear⟩ :=
          mem_patternNamesFrom (above ++ [first]) part (hparts 0 part rfl) h
        exact ⟨first, below, hin, by simp, hsome, hclear⟩
      · cases h

end

theorem mem_patternNames {pattern name : NodeId} (h : name ∈ patternNames tree pattern) :
    ∃ below, name = pattern ++ below ∧ (tree.at? name).isSome ∧ Clear tree pattern below := by
  rw [patternNames] at h
  cases hat : tree.at? pattern with
  | none => simp [hat] at h
  | some subtree => exact mem_patternNamesFrom pattern subtree hat (by simpa [hat] using h)

/-- The owner of a name that is bound below a child. -/
theorem owner_name {pattern name : NodeId} {position : Nat} {steps : List Nat}
    (h : name ∈ patternNames tree pattern) (hpattern : pattern = node ++ position :: steps)
    (hclear : Clear tree (node ++ [position]) steps) :
    (place tree name).owner = innerOwner tree node := by
  obtain ⟨below, rfl, -, hbelow⟩ := mem_patternNames h
  subst hpattern
  rw [List.append_assoc, List.cons_append, owner_below_iff, clear_append]
  exact ⟨hclear, by simpa using hbelow⟩

end Agentless.Facts.RustScopes
