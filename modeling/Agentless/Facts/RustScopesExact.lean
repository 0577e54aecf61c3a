import Agentless.Facts.RustOwners

/-!
# Locals by range are locals by environment

Every row of the table of names covers exactly the uses below the children for which some node opens
the row's name, and the owners agree exactly when no item stands between. So the table and the
resolver hold the same names.
-/

namespace Agentless.Facts.RustScopes

open OrderedTree

variable {tree : Tree}

/-! ## The resolver -/

/-- A name is in scope exactly when a node on the way opens it and no item stands between. -/
theorem mem_environmentFrom {name : Text} {steps : List Nat} {node : NodeId} {names : List Text} :
    name ∈ environmentFrom tree node names steps ↔ name ∈ names ∧ Clear tree node steps ∨
      ∃ before position more, steps = before ++ position :: more ∧
        name ∈ (opened tree (node ++ before) (node ++ before ++ [position])).map (text tree) ∧
        Clear tree (node ++ before ++ [position]) more := by
  induction steps generalizing node names with
  | nil => simp [environmentFrom]
  | cons position steps ih =>
    rw [environmentFrom, ih, clear_cons, List.mem_append]
    have hkept : name ∈ (if isAny tree node owners then [] else names) ↔
        name ∈ names ∧ isAny tree node owners = false := by
      split_ifs with hitem
      · simp [hitem]
      · simp [hitem]
    rw [hkept]
    constructor
    · rintro (⟨hopened | ⟨hname, hitem⟩, hclear⟩ | ⟨before, next, more, rfl, hopened, hclear⟩)
      · exact .inr ⟨[], position, steps, rfl, by simpa using hopened, by simpa using hclear⟩
      · exact .inl ⟨hname, hitem, hclear⟩
      · exact .inr ⟨position :: before, next, more, rfl, by simpa using hopened,
          by simpa using hclear⟩
    · rintro (⟨hname, hitem, hclear⟩ | ⟨before, next, more, hsplit, hopened, hclear⟩)
      · exact .inl ⟨.inr ⟨hname, hitem⟩, hclear⟩
      · rcases before with _ | ⟨first, before⟩
        · obtain ⟨rfl, rfl⟩ := List.cons.inj hsplit
          exact .inl ⟨.inl (by simpa using hopened), by simpa using hclear⟩
        · obtain ⟨rfl, rfl⟩ := List.cons.inj hsplit
          exact .inr ⟨before, next, more, rfl, by simpa using hopened, by simpa using hclear⟩

theorem mem_environment {name : Text} {use : NodeId} : name ∈ environment tree use ↔
    ∃ node position more, use = node ++ position :: more ∧
      name ∈ (opened tree node (node ++ [position])).map (text tree) ∧
      Clear tree (node ++ [position]) more := by
  rw [environment, mem_environmentFrom]
  simp

theorem mem_earlierSiblings {node before : NodeId} {late : Nat} :
    before ∈ earlierSiblings (node ++ [late]) ↔ ∃ early < late, before = node ++ [early] := by
  rw [earlierSiblings, List.getLast?_concat]
  simp only [List.mem_map, List.mem_range, List.dropLast_concat, eq_comm]

theorem mem_heldNames {node name : NodeId} : name ∈ heldNames tree node ↔
    ∃ pattern, field tree node .pattern = some pattern ∧ name ∈ patternNames tree pattern := by
  simp [heldNames]

theorem mem_armNames {arm name : NodeId} : name ∈ armNames tree arm ↔
    ∃ pattern, armPattern tree arm = some pattern ∧ name ∈ patternNames tree pattern := by
  simp [armNames]

theorem mem_openConditions {node condition : NodeId} : condition ∈ openConditions tree node ↔
    node <+: condition ∧ (tree.at? condition).isSome ∧ is tree condition .letCondition ∧
      ∀ above, node <+: above → above <+: condition → above ≠ condition →
        isAny tree above conditionWrappers := by
  rw [openConditions, List.mem_filter, mem_descendantsOf, Bool.and_eq_true, List.all_eq_true]
  simp only [List.mem_filter, mem_ancestorsOf, List.isPrefixOf_iff_prefix]
  grind

/-! ## Ranges -/

/-- The use is a token of at least one byte. -/
structure Wide (tree : Tree) (use : NodeId) : Prop where
  laid : Laid Node.start Node.stop tree
  token : ∃ leaf, tree.at? use = some leaf ∧ leaf.children = [] ∧
    leaf.label.start < leaf.label.stop

theorem startByte_eq {node : NodeId} {subtree : Tree} (h : tree.at? node = some subtree) :
    startByte tree node = subtree.label.start := by
  simp [startByte, h]

theorem endByte_eq {node : NodeId} {subtree : Tree} (h : tree.at? node = some subtree) :
    endByte tree node = subtree.label.stop := by
  simp [endByte, h]

section Ranges

variable {use node holder : NodeId} (hwide : Wide tree use)
include hwide

/-- The range of a node covers exactly the uses in it. -/
theorem byteRange_contains_iff (hnode : (tree.at? node).isSome) :
    (byteRange tree node).contains (startByte tree use) ↔ node <+: use := by
  obtain ⟨hlaid, leaf, hleaf, hchildren, hlt⟩ := hwide
  obtain ⟨subtree, hat⟩ := Option.isSome_iff_exists.mp hnode
  rw [← hlaid.starts_in_iff hat hleaf hchildren hlt]
  simp [Range.contains, byteRange, startByte_eq hat, endByte_eq hat, startByte_eq hleaf]

theorem behind_contains_iff (hnode : (tree.at? node).isSome) (hholder : (tree.at? holder).isSome) :
    Range.contains ⟨endByte tree node, endByte tree holder⟩ (startByte tree use) ↔
      OrderedTree.Before node use ∧ ¬ OrderedTree.Before holder use := by
  obtain ⟨hlaid, leaf, hleaf, hchildren, hlt⟩ := hwide
  obtain ⟨subtree, hat⟩ := Option.isSome_iff_exists.mp hnode
  obtain ⟨outer, houter⟩ := Option.isSome_iff_exists.mp hholder
  rw [← hlaid.stop_le_iff hat hleaf hchildren hlt, ← hlaid.stop_le_iff houter hleaf hchildren hlt,
    Nat.not_le]
  simp [Range.contains, endByte_eq hat, endByte_eq houter, startByte_eq hleaf]

end Ranges

/-! ## Rows and openings -/

/-- A node on the way to the use opens the name for it, and has its owner. -/
def Opens (tree : Tree) (use name : NodeId) : Prop :=
  ∃ node position more, use = node ++ position :: more ∧
    name ∈ opened tree node (node ++ [position]) ∧ (place tree name).owner = innerOwner tree node

/-- A row of the name covers the start of the use. -/
def Covers (tree : Tree) (use name : NodeId) (bound : NodeId × Range) : Prop :=
  name ∈ patternNames tree bound.1 ∧ bound.2.contains (startByte tree use)

theorem mem_opened {node child name : NodeId} : name ∈ opened tree node child ↔
    name ∈ openedInBody tree node child ∨ name ∈ openedByLet tree child ∨
      name ∈ openedByCondition tree node child ∨ name ∈ openedByArm tree node child ∨
      name ∈ openedInMatched tree node child := by
  rw [opened]
  simp only [List.mem_append, or_assoc]

theorem mem_parameters {node : NodeId} {body : Option NodeId} {bound : NodeId × Range} :
    bound ∈ parameters tree node body ↔ ∃ list, field tree node .parameters = some list ∧
      bound.1 ∈ namedChildren tree list ∧ bound.2 = (body.map (byteRange tree)).getD ⟨0, 0⟩ := by
  rw [parameters]
  cases field tree node .parameters with
  | none => simp
  | some list =>
    simp only [List.mem_map, Option.some.injEq, exists_eq_left']
    grind

theorem mem_parameterNames {node name : NodeId} : name ∈ parameterNames tree node ↔
    ∃ list parameter, field tree node .parameters = some list ∧
      parameter ∈ namedChildren tree list ∧ name ∈ patternNames tree parameter := by
  simp [parameterNames]

theorem mem_addresses_of_is {kind : RustKind} {node : NodeId} (h : is tree node kind) :
    node ∈ tree.addresses := by
  obtain ⟨subtree, hat, -⟩ := is_iff.mp h
  rw [mem_addresses, hat]
  rfl

section Sites

variable {use name site : NodeId} {bound : NodeId × Range}

/-! ### Parameters and `for` patterns -/

theorem owner_parameter (hshaped : Shaped tree) {list parameter : NodeId}
    (hsite : site ∈ tree.addresses) (hlist : field tree site .parameters = some list)
    (hparameter : parameter ∈ namedChildren tree list)
    (hname : name ∈ patternNames tree parameter) :
    (place tree name).owner = innerOwner tree site := by
  have hitem := hshaped.parameters site hsite list hlist
  obtain ⟨first, rfl, -⟩ := exists_of_field hlist
  obtain ⟨second, rfl, -⟩ := exists_of_mem_namedChildren hparameter
  refine owner_name hname (by simp : _ = site ++ first :: [second]) ?_
  exact clear_cons.mpr ⟨hitem, clear_nil⟩

theorem owner_held {position : Nat} {steps : List Nat} {node : NodeId}
    (hsite : site = node ++ position :: steps) (hitem : isAny tree site owners = false)
    (hclear : Clear tree (node ++ [position]) steps) (hname : name ∈ heldNames tree site) :
    (place tree name).owner = innerOwner tree node := by
  obtain ⟨pattern, hpattern, hname⟩ := mem_heldNames.mp hname
  obtain ⟨first, rfl, -⟩ := exists_of_field hpattern
  subst hsite
  refine owner_name hname (by simp : _ = node ++ position :: (steps ++ [first])) ?_
  rw [clear_append, clear_cons]
  exact ⟨hclear, by simpa using hitem, clear_nil⟩

theorem owner_heldBelow (hname : name ∈ heldNames tree site) :
    (place tree name).owner = innerOwner tree site := by
  obtain ⟨pattern, hpattern, hname⟩ := mem_heldNames.mp hname
  obtain ⟨first, rfl, -⟩ := exists_of_field hpattern
  exact owner_name hname rfl clear_nil

theorem opens_of_parameters (hshaped : Shaped tree) (hwide : Wide tree use)
    (hsite : is tree site .functionItem ∨ is tree site .closureExpression)
    (hbound : bound ∈ parameters tree site (field tree site .body))
    (hcovers : Covers tree use name bound) : Opens tree use name := by
  obtain ⟨list, hlist, hparameter, hvisible⟩ := mem_parameters.mp hbound
  obtain ⟨hname, hcontains⟩ := hcovers
  have hin : site ∈ tree.addresses := hsite.elim mem_addresses_of_is mem_addresses_of_is
  cases hbody : field tree site .body with
  | none =>
    rw [hvisible, hbody] at hcontains
    simp [Range.contains] at hcontains
  | some body =>
    rw [hvisible, hbody] at hcontains
    obtain ⟨position, rfl, hsome⟩ := exists_of_field hbody
    obtain ⟨more, rfl⟩ := (byteRange_contains_iff hwide hsome).mp hcontains
    refine ⟨site, position, more, by simp, ?_, owner_parameter hshaped hin hlist hparameter hname⟩
    rw [mem_opened, openedInBody, if_neg (by simp [hbody]), if_pos (by simpa using hsite)]
    exact .inl (mem_parameterNames.mpr ⟨list, bound.1, hlist, hparameter, hname⟩)

theorem opens_of_for (hwide : Wide tree use) (hsite : is tree site .forExpression)
    (hbound : singlePattern tree site .for_ = some bound) (hcovers : Covers tree use name bound) :
    Opens tree use name := by
  rw [singlePattern] at hbound
  obtain ⟨hname, hcontains⟩ := hcovers
  cases hpattern : field tree site .pattern with
  | none => simp [hpattern] at hbound
  | some pattern =>
    cases hbody : field tree site .body with
    | none => simp [hpattern, hbody] at hbound
    | some body =>
      obtain rfl : (pattern, byteRange tree body) = bound := by simpa [hpattern, hbody] using hbound
      obtain ⟨position, rfl, hsome⟩ := exists_of_field hbody
      obtain ⟨more, rfl⟩ := (byteRange_contains_iff hwide hsome).mp hcontains
      have hheld : name ∈ heldNames tree site := mem_heldNames.mpr ⟨pattern, hpattern, hname⟩
      refine ⟨site, position, more, by simp, ?_, owner_heldBelow hheld⟩
      have hother : ¬ (is tree site .functionItem || is tree site .closureExpression) := by
        intro h
        rcases (Bool.or_eq_true _ _).mp h with h | h
        · cases is_unique hsite h
        · cases is_unique hsite h
      rw [mem_opened, openedInBody, if_neg (by simp [hbody]), if_neg hother, if_pos hsite]
      exact .inl hheld

theorem mem_boundPatterns : bound ∈ boundPatterns tree ↔
    ∃ node site, keyed tree node sites = some site ∧ bound ∈ sitePatterns tree node site := by
  rw [boundPatterns, List.mem_flatMap]
  constructor
  · rintro ⟨node, -, h⟩
    cases hsite : keyed tree node sites with
    | none => simp [hsite] at h
    | some site => exact ⟨node, site, hsite, by simpa [hsite] using h⟩
  · rintro ⟨node, site, hsite, hbound⟩
    obtain ⟨kind, -, his⟩ := exists_of_keyed hsite
    exact ⟨node, mem_addresses_of_is his, by simpa [hsite] using hbound⟩

/-- A row of the table covers the use, and the name has the owner of what the node holds. -/
def Bound (tree : Tree) (use name node : NodeId) : Prop :=
  (∃ bound ∈ boundPatterns tree, Covers tree use name bound) ∧
    (place tree name).owner = innerOwner tree node

theorem bound_of_openedInBody (hshaped : Shaped tree) (hwide : Wide tree use) {node : NodeId}
    {position : Nat} {more : List Nat} (huse : use = node ++ position :: more)
    (hname : name ∈ openedInBody tree node (node ++ [position])) : Bound tree use name node := by
  have hin : node ++ [position] <+: use := ⟨more, by simp [huse]⟩
  have hsome (h : field tree node .body = some (node ++ [position])) :
      (byteRange tree (node ++ [position])).contains (startByte tree use) := by
    obtain ⟨-, -, hsome⟩ := exists_of_field h
    exact (byteRange_contains_iff hwide hsome).mpr hin
  rw [openedInBody] at hname
  split_ifs at hname with hbody hfunction hfor
  · cases hname
  · rw [ne_eq, not_not] at hbody
    obtain ⟨list, parameter, hlist, hparameter, hname⟩ := mem_parameterNames.mp hname
    rw [Bool.or_eq_true] at hfunction
    have hsite : node ∈ tree.addresses := hfunction.elim mem_addresses_of_is mem_addresses_of_is
    have hkeyed : keyed tree node sites = some .parameters := by
      rcases hfunction with h | h
      · rw [keyed_of_is h]
        decide
      · rw [keyed_of_is h]
        decide
    refine ⟨⟨(parameter, byteRange tree (node ++ [position])), ?_, hname, hsome hbody⟩,
      owner_parameter hshaped hsite hlist hparameter hname⟩
    refine mem_boundPatterns.mpr ⟨node, .parameters, hkeyed, ?_⟩
    rw [sitePatterns, hbody]
    exact mem_parameters.mpr ⟨list, hlist, hparameter, rfl⟩
  · rw [ne_eq, not_not] at hbody
    obtain ⟨pattern, hpattern, hheld⟩ := mem_heldNames.mp hname
    have hkeyed : keyed tree node sites = some .for_ := by
      rw [keyed_of_is hfor]
      decide
    refine ⟨⟨(pattern, byteRange tree (node ++ [position])), ?_, hheld, hsome hbody⟩,
      owner_heldBelow hname⟩
    refine mem_boundPatterns.mpr ⟨node, .for_, hkeyed, ?_⟩
    simp [sitePatterns, singlePattern, hpattern, hbody]
  · cases hname

/-! ### `let` statements -/

theorem opens_of_let (hwide : Wide tree use) (hsite : is tree site .letDeclaration)
    (hbound : singlePattern tree site .let_ = some bound) (hcovers : Covers tree use name bound) :
    Opens tree use name := by
  rw [singlePattern] at hbound
  obtain ⟨hname, hcontains⟩ := hcovers
  cases hpattern : field tree site .pattern with
  | none => simp [hpattern] at hbound
  | some pattern =>
    cases hparent : parentOf site with
    | none => simp [hpattern, hparent] at hbound
    | some block =>
      obtain rfl : (pattern, (⟨endByte tree site, endByte tree block⟩ : Range)) = bound := by
        simpa [hpattern, hparent] using hbound
      obtain ⟨early, rfl⟩ := parentOf_eq_some hparent
      obtain ⟨statement, hat, -⟩ := is_iff.mp hsite
      have hsome : (tree.at? (block ++ [early])).isSome := by rw [hat]; rfl
      have hblock := isSome_at?_above (List.prefix_append block [early]) hsome
      rw [behind_contains_iff hwide hsome hblock,
        before_inside_iff (List.prefix_append block [early])] at hcontains
      obtain ⟨shared, first, below, late, more, hsplit, rfl, hlt, hshared⟩ := hcontains
      obtain ⟨rest, rfl⟩ := hshared
      have hheld : name ∈ heldNames tree (block ++ [early]) :=
        mem_heldNames.mpr ⟨pattern, hpattern, hname⟩
      rw [List.append_assoc, List.append_cancel_left_eq] at hsplit
      obtain ⟨rfl, rfl, rfl⟩ : rest = [] ∧ first = early ∧ below = [] := by
        rcases rest with _ | ⟨head, rest⟩
        · simpa [eq_comm] using hsplit
        · simp at hsplit
      have hnotItem : isAny tree (block ++ [first]) owners = false := by
        rw [isAny_of_is hsite]
        decide
      refine ⟨block, late, more, by simp, ?_, owner_held rfl hnotItem clear_nil hheld⟩
      rw [mem_opened, openedByLet]
      refine .inr (.inl (List.mem_flatMap.mpr ⟨block ++ [first], ?_, ?_⟩))
      · exact mem_earlierSiblings.mpr ⟨first, hlt, rfl⟩
      · rwa [if_pos hsite]

theorem bound_of_openedByLet (hwide : Wide tree use) {node : NodeId} {position : Nat}
    {more : List Nat} (huse : use = node ++ position :: more)
    (hname : name ∈ openedByLet tree (node ++ [position])) : Bound tree use name node := by
  rw [openedByLet] at hname
  obtain ⟨statement, hearlier, hname⟩ := List.mem_flatMap.mp hname
  obtain ⟨early, hlt, rfl⟩ := mem_earlierSiblings.mp hearlier
  split_ifs at hname with hlet
  · obtain ⟨pattern, hpattern, hheld⟩ := mem_heldNames.mp hname
    have hnotItem : isAny tree (node ++ [early]) owners = false := by
      rw [isAny_of_is hlet]
      decide
    have hkeyed : keyed tree (node ++ [early]) sites = some .let_ := by
      rw [keyed_of_is hlet]
      decide
    obtain ⟨statement, hat, -⟩ := is_iff.mp hlet
    have hsome : (tree.at? (node ++ [early])).isSome := by rw [hat]; rfl
    have hnode := isSome_at?_above (List.prefix_append node [early]) hsome
    refine ⟨⟨(pattern, ⟨endByte tree (node ++ [early]), endByte tree node⟩), ?_, hheld, ?_⟩,
      owner_held rfl hnotItem clear_nil hname⟩
    · refine mem_boundPatterns.mpr ⟨node ++ [early], .let_, hkeyed, ?_⟩
      simp [sitePatterns, singlePattern, hpattern]
    · rw [behind_contains_iff hwide hsome hnode,
        before_inside_iff (List.prefix_append node [early])]
      exact ⟨node, early, [], position, more, rfl, huse, hlt, List.prefix_rfl⟩
  · cases hname

/-! ### `let` conditions -/

/-- The nearest node above a condition that is no wrapper. -/
def Guard (tree : Tree) (condition guard : NodeId) : Prop :=
  guard <+: condition ∧ guard ≠ condition ∧ isAny tree guard conditionWrappers = false ∧
    ∀ above, guard <+: above → above ≠ guard → above <+: condition → above ≠ condition →
      isAny tree above conditionWrappers

theorem exists_guard (hshaped : Shaped tree) {condition : NodeId} (hroot : condition ≠ []) :
    ∃ guard, Guard tree condition guard ∧
      (ancestorsOf condition).find? (fun parent => !isAny tree parent conditionWrappers) =
        some guard := by
  cases hfound :
      (ancestorsOf condition).find? fun parent => !isAny tree parent conditionWrappers with
  | none =>
    have hin : [] ∈ ancestorsOf condition := mem_ancestorsOf.mpr ⟨List.nil_prefix, hroot.symm⟩
    have := List.find?_eq_none.mp hfound [] hin
    simp [hshaped.root] at this
  | some guard =>
    obtain ⟨hbegin, hne, hwrapper, hbetween⟩ := find?_ancestorsOf_eq_some_iff.mp hfound
    refine ⟨guard, ⟨hbegin, hne, by simpa using hwrapper, ?_⟩, rfl⟩
    simpa using hbetween

/-- The block of an `if` that holds the condition. -/
def guardedBlock (tree : Tree) (guard : NodeId) : Option NodeId :=
  if is tree guard .ifExpression then field tree guard .consequence else none

/-- The condition's names reach the uses behind it under its guard, and not what stands behind the
block of an `if`. -/
theorem condition_contains_iff (hwide : Wide tree use) {guard : NodeId}
    (hguard : Guard tree site guard) (hsome : (tree.at? site).isSome)
    (hfound : (ancestorsOf site).find? (fun parent => !isAny tree parent conditionWrappers) =
      some guard) :
    Range.contains ⟨endByte tree site, conditionEnd tree site⟩ (startByte tree use) ↔
      OrderedTree.Before site use ∧ ¬ OrderedTree.Before guard use ∧
        ∀ block ∈ guardedBlock tree guard, ¬ OrderedTree.Before block use := by
  have hin := isSome_at?_above hguard.1 hsome
  have hend : conditionEnd tree site = endByte tree ((guardedBlock tree guard).getD guard) := by
    rw [conditionEnd, hfound]
    rfl
  rw [hend]
  cases hblock : guardedBlock tree guard with
  | none =>
    rw [Option.getD_none, behind_contains_iff hwide hsome hin]
    simp
  | some block =>
    have hfield : field tree guard .consequence = some block := by
      rw [guardedBlock] at hblock
      split_ifs at hblock
      exact hblock
    obtain ⟨position, rfl, hblockIn⟩ := exists_of_field hfield
    rw [Option.getD_some, behind_contains_iff hwide hsome hblockIn]
    have hup (h : OrderedTree.Before guard use) : OrderedTree.Before (guard ++ [position]) use := h.append [position]
    simp only [Option.mem_some_iff, forall_eq']
    tauto

/-- Between a node under the guard and the condition stand wrappers, which are no items. -/
theorem Guard.clear {guard node : NodeId} {early : Nat} {below : List Nat}
    (hguard : Guard tree site guard) (hsite : site = node ++ early :: below)
    (hunder : guard <+: node) : Clear tree (node ++ [early]) below := by
  refine clear_of_between (by decide : ∀ kind ∈ conditionWrappers, kind ∉ owners) ?_
  intro above hbegin hbelow hne
  have hsplit : node ++ [early] ++ below = site := by simp [hsite]
  rw [hsplit] at hbelow hne
  refine hguard.2.2.2 above (hunder.trans ((List.prefix_append node [early]).trans hbegin)) ?_
    hbelow hne
  rintro rfl
  have := hbegin.length_le
  have := hunder.length_le
  rw [List.length_append, List.length_singleton] at *
  omega

theorem opens_of_condition (hshaped : Shaped tree) (hwide : Wide tree use)
    (hsite : is tree site .letCondition) (hbound : singlePattern tree site .condition = some bound)
    (hcovers : Covers tree use name bound) : Opens tree use name := by
  rw [singlePattern] at hbound
  obtain ⟨pattern, hpattern, rfl⟩ := Option.map_eq_some_iff.mp hbound
  obtain ⟨hname, hcontains⟩ := hcovers
  obtain ⟨condition, hat, -⟩ := is_iff.mp hsite
  have hsome : (tree.at? site).isSome := by rw [hat]; rfl
  have hroot : site ≠ [] := by
    rintro rfl
    simp [Range.contains, conditionEnd, ancestorsOf] at hcontains
    omega
  have hheld : name ∈ heldNames tree site := mem_heldNames.mpr ⟨pattern, hpattern, hname⟩
  have hnotItem : isAny tree site owners = false := by
    rw [isAny_of_is hsite]
    decide
  obtain ⟨guard, hguard, hfound⟩ := exists_guard hshaped hroot
  obtain ⟨hbefore, hnot, hblock⟩ := (condition_contains_iff hwide hguard hsome hfound).mp hcontains
  obtain ⟨node, early, below, late, more, hsplit, rfl, hlt, hunder⟩ :=
    (before_inside_iff hguard.1).mp ⟨hbefore, hnot⟩
  refine ⟨node, late, more, rfl, ?_,
    owner_held hsplit hnotItem (hguard.clear hsplit hunder) hheld⟩
  rw [mem_opened, openedByCondition]
  refine .inr (.inr (.inl ?_))
  have hif : ¬ (is tree node .ifExpression && (field tree node .consequence).any fun block =>
      (earlierSiblings (node ++ [late])).contains block) := by
    intro h
    obtain ⟨hnode, h⟩ := (Bool.and_eq_true _ _).mp h
    obtain ⟨block, hconsequence, hearlier⟩ := (Option.any_eq_true _ _).mp h
    obtain ⟨position, hposition, rfl⟩ := mem_earlierSiblings.mp (List.contains_iff_mem.mp hearlier)
    have hsame : node = guard := by
      by_contra hne
      have := hguard.2.2.2 node hunder hne ⟨early :: below, hsplit.symm⟩ (by simp [hsplit])
      rw [isAny_of_is hnode] at this
      cases this
    subst hsame
    refine hblock _ ?_ ⟨node, position, [], late, more, rfl, rfl, hposition⟩
    rw [guardedBlock, if_pos hnode]
    exact hconsequence
  rw [if_neg hif]
  refine List.mem_flatMap.mpr ⟨node ++ [early], mem_earlierSiblings.mpr ⟨early, hlt, rfl⟩, ?_⟩
  refine List.mem_flatMap.mpr ⟨site, mem_openConditions.mpr ⟨?_, hsome, hsite, ?_⟩, hheld⟩
  · exact ⟨below, by simp [hsplit]⟩
  · intro above hbegin hbelow hne
    refine hguard.2.2.2 above (hunder.trans ((List.prefix_append node [early]).trans hbegin)) ?_
      hbelow hne
    rintro rfl
    have := hbegin.length_le
    have := hunder.length_le
    rw [List.length_append, List.length_singleton] at *
    omega

theorem bound_of_openedByCondition (hshaped : Shaped tree) (hwide : Wide tree use) {node : NodeId}
    {position : Nat} {more : List Nat} (huse : use = node ++ position :: more)
    (hname : name ∈ openedByCondition tree node (node ++ [position])) :
    Bound tree use name node := by
  rw [openedByCondition] at hname
  split_ifs at hname with hif
  · cases hname
  obtain ⟨before, hearlier, hname⟩ := List.mem_flatMap.mp hname
  obtain ⟨early, hlt, rfl⟩ := mem_earlierSiblings.mp hearlier
  obtain ⟨condition, hopen, hheld⟩ := List.mem_flatMap.mp hname
  obtain ⟨⟨below, hsplit⟩, hsome, hsite, hbetween⟩ := mem_openConditions.mp hopen
  have hsplit' : condition = node ++ early :: below := by simp [← hsplit]
  obtain ⟨pattern, hpattern, hbinds⟩ := mem_heldNames.mp hheld
  have hnotItem : isAny tree condition owners = false := by
    rw [isAny_of_is hsite]
    decide
  have hkeyed : keyed tree condition sites = some .condition := by
    rw [keyed_of_is hsite]
    decide
  obtain ⟨guard, hguard, hfound⟩ := exists_guard hshaped (by simp [hsplit'] : condition ≠ [])
  -- The guard is not below the node: from the child of the node on stand wrappers.
  have hunder : guard <+: node := by
    have hchild : node ++ [early] <+: condition := ⟨below, hsplit⟩
    rcases List.prefix_or_prefix_of_prefix hguard.1 hchild with h | h
    · rcases List.prefix_concat_iff.mp h with rfl | h
      · have := hbetween _ List.prefix_rfl hguard.1 hguard.2.1
        rw [hguard.2.2.1] at this
        cases this
      · exact h
    · have := hbetween guard h hguard.1 hguard.2.1
      rw [hguard.2.2.1] at this
      cases this
  refine ⟨⟨(pattern, ⟨endByte tree condition, conditionEnd tree condition⟩), ?_, hbinds, ?_⟩,
    owner_held hsplit' hnotItem (hguard.clear hsplit' hunder) hheld⟩
  · refine mem_boundPatterns.mpr ⟨condition, .condition, hkeyed, ?_⟩
    simp [sitePatterns, singlePattern, hpattern]
  · refine (condition_contains_iff hwide hguard hsome hfound).mpr ?_
    obtain ⟨hbefore, hnot⟩ := (before_inside_iff hguard.1).mpr
      ⟨node, early, below, position, more, hsplit', huse, hlt, hunder⟩
    refine ⟨hbefore, hnot, ?_⟩
    intro block hblock hbehind
    rw [guardedBlock] at hblock
    split_ifs at hblock with hguardIf
    · obtain ⟨kept, rfl, -⟩ := exists_of_field hblock
      obtain ⟨shared, first, rest, late, more', hshared, huse', hlate, hin⟩ :=
        (before_inside_iff (List.prefix_append guard [kept])).mp ⟨hbehind, hnot⟩
      obtain ⟨tail, rfl⟩ := hin
      obtain ⟨rfl, rfl, rfl⟩ : tail = [] ∧ first = kept ∧ rest = [] := by
        rw [List.append_assoc, List.append_cancel_left_eq] at hshared
        rcases tail with _ | ⟨head, tail⟩
        · simpa [eq_comm] using hshared
        · simp at hshared
      obtain ⟨steps, rfl⟩ := hunder
      rw [huse, List.append_nil, List.append_assoc, List.append_cancel_left_eq] at huse'
      have hearlier' : guard ++ [first] ∈ earlierSiblings (guard ++ [late]) :=
        mem_earlierSiblings.mpr ⟨first, hlate, rfl⟩
      rcases steps with _ | ⟨head, steps⟩
      · obtain ⟨rfl, -⟩ := List.cons.inj huse'
        refine hif ?_
        rw [List.append_nil, Bool.and_eq_true, Option.any_eq_true]
        exact ⟨hguardIf, _, hblock, List.contains_iff_mem.mpr hearlier'⟩
      · obtain ⟨rfl, -⟩ := List.cons.inj huse'
        have hchild : guard ++ [head] <+: condition :=
          ⟨steps ++ early :: below, by simp [hsplit']⟩
        have hwrapper := hguard.2.2.2 (guard ++ [head]) (List.prefix_append guard [head]) (by simp)
          hchild (by simp [hsplit'])
        have hplain := hshaped.block guard (mem_addresses_of_is hguardIf) hguardIf _ hblock
          (guard ++ [head]) (mem_childrenOf.mpr ⟨head, rfl, isSome_at?_above hchild hsome⟩)
          hearlier'
        rw [hplain] at hwrapper
        cases hwrapper
    · cases hblock

/-! ### Arms -/

theorem exists_matched (hshaped : Shaped tree) {part : NodeId} (hsite : is tree site .matchArm)
    (hpart : armPattern tree site = some part) : ∃ first second,
      field tree site .pattern = some (site ++ [first]) ∧ part = site ++ [first] ++ [second] ∧
        (tree.at? part).isSome ∧ isAny tree (site ++ [first]) owners = false := by
  obtain ⟨matched, second, hmatched, rfl, hsome⟩ := exists_of_armPattern hpart
  have hitem := hshaped.matched site (mem_addresses_of_is hsite) hsite matched hmatched
  obtain ⟨first, rfl, -⟩ := exists_of_field hmatched
  exact ⟨first, second, hmatched, rfl, hsome, hitem⟩

theorem opens_of_arm (hshaped : Shaped tree) (hwide : Wide tree use)
    (hsite : is tree site .matchArm) (hbound : singlePattern tree site .arm = some bound)
    (hcovers : Covers tree use name bound) : Opens tree use name := by
  rw [singlePattern] at hbound
  obtain ⟨part, hpart, rfl⟩ := Option.map_eq_some_iff.mp hbound
  obtain ⟨hname, hcontains⟩ := hcovers
  have hheld : name ∈ armNames tree site := mem_armNames.mpr ⟨part, hpart, hname⟩
  obtain ⟨first, second, hmatched, rfl, hsome, hitem⟩ := exists_matched hshaped hsite hpart
  have hin : site <+: site ++ [first] ++ [second] := ⟨[first, second], by simp⟩
  rw [behind_contains_iff hwide hsome (isSome_at?_above hin hsome), before_inside_iff hin]
    at hcontains
  obtain ⟨shared, early, below, late, more, hsplit, rfl, hlt, rest, rfl⟩ := hcontains
  rw [List.append_assoc, List.append_assoc, List.append_cancel_left_eq] at hsplit
  rcases rest with _ | ⟨head, rest⟩
  · -- The use stands behind what is matched.
    obtain ⟨rfl, rfl⟩ := List.cons.inj hsplit
    rw [List.append_nil]
    refine ⟨site, late, more, rfl, ?_, owner_name hname (by simp : _ = site ++ first :: [second])
      (clear_cons.mpr ⟨hitem, clear_nil⟩)⟩
    rw [mem_opened, openedByArm, if_pos]
    · exact .inr (.inr (.inr (.inl hheld)))
    · rw [Bool.and_eq_true, Option.any_eq_true]
      exact ⟨hsite, _, hmatched, List.contains_iff_mem.mpr
        (mem_earlierSiblings.mpr ⟨first, hlt, rfl⟩)⟩
  · -- The use stands in what is matched.
    obtain ⟨rfl, hrest⟩ := List.cons.inj hsplit
    obtain ⟨rfl, rfl, rfl⟩ : rest = [] ∧ early = second ∧ below = [] := by
      rcases rest with _ | ⟨next, rest⟩
      · simpa [eq_comm] using hrest
      · simp at hrest
    refine ⟨site ++ [first], late, more, rfl, ?_, owner_name hname rfl clear_nil⟩
    rw [mem_opened, openedInMatched, parentOf_concat]
    refine .inr (.inr (.inr (.inr ?_)))
    simp only
    rwa [if_pos]
    rw [Bool.and_eq_true, Bool.and_eq_true, Option.any_eq_true]
    exact ⟨⟨hsite, by simpa using hmatched⟩, _, hpart, List.contains_iff_mem.mpr
      (mem_earlierSiblings.mpr ⟨early, hlt, rfl⟩)⟩

theorem keyed_arm (hsite : is tree site .matchArm) : keyed tree site sites = some .arm := by
  rw [keyed_of_is hsite]
  decide

theorem bound_of_openedByArm (hshaped : Shaped tree) (hwide : Wide tree use) {node : NodeId}
    {position : Nat} {more : List Nat} (huse : use = node ++ position :: more)
    (hname : name ∈ openedByArm tree node (node ++ [position])) : Bound tree use name node := by
  rw [openedByArm] at hname
  split_ifs at hname with harm
  · obtain ⟨hsite, hearlier⟩ := (Bool.and_eq_true _ _).mp harm
    obtain ⟨part, hpart, hbinds⟩ := mem_armNames.mp hname
    obtain ⟨first, second, hmatched, rfl, hsome, hitem⟩ := exists_matched hshaped hsite hpart
    rw [hmatched, Option.any_some] at hearlier
    obtain ⟨early, hlt, heq⟩ := mem_earlierSiblings.mp (List.contains_iff_mem.mp hearlier)
    obtain rfl : first = early := by simpa using heq
    have hin : node <+: node ++ [first] ++ [second] := ⟨[first, second], by simp⟩
    refine ⟨⟨(node ++ [first] ++ [second],
      ⟨endByte tree (node ++ [first] ++ [second]), endByte tree node⟩), ?_, hbinds, ?_⟩,
      owner_name hbinds (by simp : _ = node ++ first :: [second])
        (clear_cons.mpr ⟨hitem, clear_nil⟩)⟩
    · refine mem_boundPatterns.mpr ⟨node, .arm, keyed_arm hsite, ?_⟩
      simp [sitePatterns, singlePattern, hpart]
    · rw [behind_contains_iff hwide hsome (isSome_at?_above hin hsome), before_inside_iff hin]
      exact ⟨node, first, [second], position, more, by simp, huse, hlt, List.prefix_rfl⟩
  · cases hname

theorem bound_of_openedInMatched (hshaped : Shaped tree) (hwide : Wide tree use) {node : NodeId}
    {position : Nat} {more : List Nat} (huse : use = node ++ position :: more)
    (hname : name ∈ openedInMatched tree node (node ++ [position])) :
    Bound tree use name node := by
  rw [openedInMatched] at hname
  cases hparent : parentOf node with
  | none => simp [hparent] at hname
  | some arm =>
    simp only [hparent] at hname
    split_ifs at hname with harm
    · rw [Bool.and_eq_true, Bool.and_eq_true, decide_eq_true_iff] at harm
      obtain ⟨⟨hsite, hnode⟩, hearlier⟩ := harm
      obtain ⟨part, hpart, hbinds⟩ := mem_armNames.mp hname
      obtain ⟨first, second, hmatched, rfl, hsome, hitem⟩ := exists_matched hshaped hsite hpart
      obtain rfl : node = arm ++ [first] := Option.some.inj (hnode.symm.trans hmatched)
      rw [hpart, Option.any_some] at hearlier
      obtain ⟨early, hlt, heq⟩ := mem_earlierSiblings.mp (List.contains_iff_mem.mp hearlier)
      obtain rfl : second = early := by simpa using heq
      have hin : arm <+: arm ++ [first] ++ [second] := ⟨[first, second], by simp⟩
      refine ⟨⟨(arm ++ [first] ++ [second],
        ⟨endByte tree (arm ++ [first] ++ [second]), endByte tree arm⟩), ?_, hbinds, ?_⟩,
        owner_name hbinds rfl clear_nil⟩
      · refine mem_boundPatterns.mpr ⟨arm, .arm, keyed_arm hsite, ?_⟩
        simp [sitePatterns, singlePattern, hpart]
      · rw [behind_contains_iff hwide hsome (isSome_at?_above hin hsome), before_inside_iff hin]
        exact ⟨arm ++ [first], second, [], position, more, rfl, huse, hlt,
          List.prefix_append arm [first]⟩
    · cases hname

/-! ## The table and the resolver -/

theorem opens_of_bound (hshaped : Shaped tree) (hwide : Wide tree use)
    (hbound : bound ∈ boundPatterns tree) (hcovers : Covers tree use name bound) :
    Opens tree use name := by
  obtain ⟨node, site, hkeyed, hbound⟩ := mem_boundPatterns.mp hbound
  obtain ⟨kind, hrow, hsite⟩ := exists_of_keyed hkeyed
  simp only [sites, List.mem_cons, Prod.mk.injEq, List.not_mem_nil, or_false] at hrow
  have hsignature (h : bound ∈ parameters tree node none) : Opens tree use name := by
    obtain ⟨list, -, -, hvisible⟩ := mem_parameters.mp h
    have hcontains := hcovers.2
    rw [hvisible] at hcontains
    simp [Range.contains] at hcontains
  rcases hrow with ⟨rfl, rfl⟩ | ⟨rfl, rfl⟩ | ⟨rfl, rfl⟩ | ⟨rfl, rfl⟩ | ⟨rfl, rfl⟩ | ⟨rfl, rfl⟩ |
    ⟨rfl, rfl⟩ | ⟨rfl, rfl⟩
  · exact opens_of_parameters hshaped hwide (.inr hsite) hbound hcovers
  · exact opens_of_for hwide hsite (Option.mem_toList.mp hbound) hcovers
  · exact opens_of_parameters hshaped hwide (.inl hsite) hbound hcovers
  · exact hsignature hbound
  · exact hsignature hbound
  · exact opens_of_condition hshaped hwide hsite (Option.mem_toList.mp hbound) hcovers
  · exact opens_of_let hwide hsite (Option.mem_toList.mp hbound) hcovers
  · exact opens_of_arm hshaped hwide hsite (Option.mem_toList.mp hbound) hcovers

theorem bound_of_opened (hshaped : Shaped tree) (hwide : Wide tree use) {node : NodeId}
    {position : Nat} {more : List Nat} (huse : use = node ++ position :: more)
    (hname : name ∈ opened tree node (node ++ [position])) : Bound tree use name node := by
  rcases mem_opened.mp hname with h | h | h | h | h
  · exact bound_of_openedInBody hshaped hwide huse h
  · exact bound_of_openedByLet hwide huse h
  · exact bound_of_openedByCondition hshaped hwide huse h
  · exact bound_of_openedByArm hshaped hwide huse h
  · exact bound_of_openedInMatched hshaped hwide huse h

end Sites

theorem visibleLocal_iff {use : NodeId} : visibleLocal tree use ↔
    ∃ bound ∈ boundPatterns tree, ∃ name, Covers tree use name bound ∧
      text tree name = text tree use ∧ (place tree name).owner = (place tree use).owner := by
  rw [visibleLocal, List.any_eq_true]
  constructor
  · rintro ⟨entry, hentry, hmatch⟩
    obtain ⟨hlocal, htext⟩ := List.mem_filter.mp hentry
    obtain ⟨bound, hbound, hrow⟩ := List.mem_flatMap.mp hlocal
    rw [bindPattern] at hrow
    split_ifs at hrow with hempty
    · cases hrow
    · obtain ⟨name, hname, rfl⟩ := List.mem_map.mp hrow
      obtain ⟨howner, hcontains⟩ := (Bool.and_eq_true _ _).mp hmatch
      exact ⟨bound, hbound, name, ⟨hname, hcontains⟩, by simpa using htext, by simpa using howner⟩
  · rintro ⟨bound, hbound, name, ⟨hname, hcontains⟩, htext, howner⟩
    refine ⟨(text tree name, ⟨(place tree name).owner, bound.2⟩), ?_, ?_⟩
    · refine List.mem_filter.mpr ⟨List.mem_flatMap.mpr ⟨bound, hbound, ?_⟩, by simpa using htext⟩
      have hfull : ¬ bound.2.isEmpty := by
        have := (Bool.and_eq_true _ _).mp hcontains
        simp only [decide_eq_true_eq] at this
        rw [Range.isEmpty, decide_eq_true_iff]
        omega
      rw [bindPattern, if_neg hfull]
      exact List.mem_map.mpr ⟨name, hname, rfl⟩
    · rw [Bool.and_eq_true]
      exact ⟨by simpa using howner, hcontains⟩

/-- A row covers the use exactly when the resolver holds its name there. -/
theorem visibleLocal_iff_environment (hshaped : Shaped tree) {use : NodeId}
    (hwide : Wide tree use) : visibleLocal tree use ↔ text tree use ∈ environment tree use := by
  rw [visibleLocal_iff, mem_environment]
  constructor
  · rintro ⟨bound, hbound, name, hcovers, htext, howner⟩
    obtain ⟨node, position, more, huse, hopened, hinner⟩ :=
      opens_of_bound hshaped hwide hbound hcovers
    refine ⟨node, position, more, huse, List.mem_map.mpr ⟨name, hopened, htext⟩, ?_⟩
    rw [← owner_below_iff, ← huse, ← howner, hinner]
  · rintro ⟨node, position, more, huse, hopened, hclear⟩
    obtain ⟨name, hopened, htext⟩ := List.mem_map.mp hopened
    obtain ⟨⟨bound, hbound, hcovers⟩, hinner⟩ := bound_of_opened hshaped hwide huse hopened
    refine ⟨bound, hbound, name, hcovers, htext, ?_⟩
    rw [hinner, huse, owner_below_iff.mpr hclear]

theorem inPattern_of_isBinding {node : NodeId} (h : isBinding tree node) : inPattern tree node := by
  obtain ⟨bound, hbound, h⟩ := List.any_eq_true.mp h
  have hname := List.contains_iff_mem.mp ((Bool.and_eq_true _ _).mp h).1
  obtain ⟨below, rfl, hsome, -⟩ := mem_patternNames hname
  refine List.any_eq_true.mpr ⟨bound, hbound, List.contains_iff_mem.mpr ?_⟩
  exact mem_descendantsOf.mpr ⟨List.prefix_append _ _, hsome⟩

/-- The walk marks a use as a local exactly when a row covers it. -/
theorem role_eq_localName_iff {use : NodeId} (huse : Use tree use) (symbols : List Graph.Symbol) :
    role tree symbols use = some .localName ↔ visibleLocal tree use := by
  have hbind : bindRole tree use = none := by
    rw [bindRole, if_neg]
    intro h
    have := inPattern_of_isBinding h
    rw [huse.pattern] at this
    cases this
  have hitem : namesItem tree use = false := by
    have := huse.position
    rw [usePosition] at this
    by_contra h
    cases hparent : parentOf use with
    | none => simp [hparent] at this
    | some parent => simp [hparent, h] at this
  have hsyntax : markSyntax tree symbols use = none := by
    simp [markSyntax, hbind, hitem, huse.member]
  simp [role, markLocal, hsyntax, huse.pattern, huse.opaque_, huse.identifier, huse.position]

/-- In a tree of ordered and nested extents, a use of at least one byte is marked as a local exactly
when the resolver holds its name. -/
theorem local_iff_environment (symbols : List Graph.Symbol)
    (hlaid : Laid Node.start Node.stop tree) (hshaped : Shaped tree) {use : NodeId}
    (huse : Use tree use) (hwide : startByte tree use < endByte tree use) :
    role tree symbols use = some .localName ↔ text tree use ∈ environment tree use := by
  rw [role_eq_localName_iff huse, visibleLocal_iff_environment hshaped]
  obtain ⟨leaf, hat, hkind⟩ := is_iff.mp huse.identifier
  refine ⟨hlaid, leaf, hat, ?_, by simpa [startByte_eq hat, endByte_eq hat] using hwide⟩
  have htoken := hshaped.token use (mem_addresses_of_is huse.identifier) huse.identifier
  simpa [childrenOf, hat] using htoken

/-! ### Blocks with one `let` -/

def punct (start : Nat) (text : String) : Tree :=
  .node ⟨.other text.toList, none, false, start, start + text.length, 1, text.toList⟩ []

def ident (start : Nat) (text : String) (key : Option Field) : Tree :=
  .node ⟨.identifier, key, true, start, start + text.length, 1, text.toList⟩ []

/-- The block `{let a=b;a}`. -/
def letBlock : Tree :=
  .node ⟨.other "block".toList, none, true, 0, 11, 1, "\x7blet a=b;a\x7d".toList⟩
    [punct 0 "\x7b",
      .node ⟨.letDeclaration, none, true, 1, 9, 1, "let a=b;".toList⟩
        [punct 1 "let", ident 5 "a" (some .pattern), punct 6 "=", ident 7 "b" none, punct 8 ";"],
      ident 9 "a" none, punct 10 "\x7d"]

theorem local_in_letBlock : role letBlock [] [2] = some .localName :=
  (local_iff_environment [] (by simp [Laid, LaidFrom, letBlock, ident, punct, label]; decide)
    ⟨by decide, by decide, by decide, by decide, by decide⟩
    ⟨by decide, by decide, by decide, by decide, by decide⟩ (by decide)).mpr (by decide)

/-- The text `match v {& => c * -}`, where the name after `&` and the operand of `-` are missing. -/
def missingArm : Tree :=
  .node ⟨.other "source_file".toList, none, true, 0, 20, 1, "match v \x7b& => c * -\x7d".toList⟩
    [.node ⟨.other "expression_statement".toList, none, true, 0, 20, 1,
        "match v \x7b& => c * -\x7d".toList⟩
      [.node ⟨.other "match_expression".toList, none, true, 0, 20, 1,
          "match v \x7b& => c * -\x7d".toList⟩
        [punct 0 "match", ident 6 "v" none,
          .node ⟨.other "match_block".toList, some .body, true, 8, 20, 1, "\x7b& => c * -\x7d".toList⟩
            [punct 8 "\x7b",
              .node ⟨.matchArm, none, true, 9, 19, 1, "& => c * -".toList⟩
                [.node ⟨.matchPattern, some .pattern, true, 9, 10, 1, "&".toList⟩
                    [.node ⟨.referencePattern, none, true, 9, 10, 1, "&".toList⟩
                      [punct 9 "&", ident 10 "" none]],
                  punct 11 "=>",
                  .node ⟨.other "binary_expression".toList, none, true, 14, 19, 1, "c * -".toList⟩
                    [ident 14 "c" none, punct 16 "*",
                      .node ⟨.other "unary_expression".toList, none, true, 18, 19, 1, "-".toList⟩
                        [punct 18 "-", ident 19 "" none]]],
              punct 19 "\x7d"]]]]

/-- A missing operand at the end of its arm counts as behind the arm. -/
theorem local_in_missingArm : Laid Node.start Node.stop missingArm ∧ Shaped missingArm ∧
    Use missingArm [0, 0, 2, 1, 2, 2, 1] ∧
    ¬ (role missingArm [] [0, 0, 2, 1, 2, 2, 1] = some .localName ↔
      text missingArm [0, 0, 2, 1, 2, 2, 1] ∈ environment missingArm [0, 0, 2, 1, 2, 2, 1]) :=
  ⟨by simp [Laid, LaidFrom, missingArm, ident, punct, label]; decide,
    ⟨by decide, by decide, by decide, by decide, by decide⟩,
    ⟨by decide, by decide, by decide, by decide, by decide⟩, by decide⟩

end Agentless.Facts.RustScopes
