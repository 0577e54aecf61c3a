import Agentless.Graph.ShortestPath
import Agentless.Library.StableSort

/-!
# The search that tries each ambiguous name once

1. A hop can be left out when its end was seen, or when an earlier hop with no greater key has the
   same end.
2. The hops that the search leaves out are such hops, so it gives what a search over all hops gives.
-/

namespace Agentless.Graph.Path

open Std

instance : TransOrd Tier where
  eq_swap {x y} := by cases x <;> cases y <;> rfl
  isLE_trans {x y z} := by cases x <;> cases y <;> cases z <;> decide

instance : TransCmp SymbolEdge.cmpSortKey :=
  inferInstanceAs (TransCmp (compareLex (compareOn fun edge => edge.source.node)
    (compareLex (compareOn fun edge => edge.target.node)
    (compareLex (compareOn SymbolEdge.relation) (compareLex (compareOn SymbolEdge.tier)
    (compareLex (compareOn SymbolEdge.name) (compareLex (compareOn fun edge => edge.source.line)
    (compareOn fun edge => edge.target.line))))))))

instance : Std.Total byKey where
  total x y := by
    unfold byKey
    rw [← OrientedCmp.isGE_iff_isLE (a := x.edge) (b := y.edge)]
    cases x.edge.cmpSortKey y.edge <;> decide

instance : IsTrans Hop byKey where
  trans _ _ _ := TransCmp.isLE_trans

/-! ## Expanding a node -/

section Expand

variable {target node : Text} {search : Search} {following : List Text}

theorem expand_append (front back : List Hop) :
    expand target node (front ++ back) search following =
      match expand target node front search following with
      | (true, search, following) => (true, search, following)
      | (false, search, following) => expand target node back search following := by
  fun_induction expand target node front search following with
  | case1 => rfl
  | case2 search following hop hops reached hseen ih =>
    rw [List.cons_append, expand, if_pos hseen, ih]
  | case3 search following hop hops reached hseen search' htarget =>
    rw [List.cons_append, expand, if_neg hseen]
    exact if_pos htarget
  | case4 search following hop hops reached hseen search' htarget ih =>
    rw [List.cons_append, expand, if_neg hseen]
    dsimp only
    rw [if_neg htarget, ih]

theorem seen_expand {hops : List Hop} {search' : Search} {following' : List Text}
    (h : expand target node hops search following = (false, search', following')) :
    search.seen ⊆ search'.seen ∧ (∀ hop ∈ hops, hop.arrival.node ∈ search'.seen) ∧
      ∀ other ∈ following', other ∈ following ∨ other ∈ search'.seen := by
  fun_induction expand target node hops search following with
  | case1 =>
    cases h
    exact ⟨List.Subset.refl _, nofun, fun _ => .inl⟩
  | case2 search following hop hops reached hseen ih =>
    obtain ⟨hsubset, hhops, hfollowing⟩ := ih h
    exact ⟨hsubset, List.forall_mem_cons.mpr ⟨hsubset hseen, hhops⟩, hfollowing⟩
  | case3 => cases h
  | case4 search following hop hops reached hseen search'' htarget ih =>
    obtain ⟨hsubset, hhops, hfollowing⟩ := ih h
    have hreached : reached ∈ search'.seen := hsubset List.mem_cons_self
    refine ⟨fun _ hmem => hsubset (List.mem_cons_of_mem _ hmem),
      List.forall_mem_cons.mpr ⟨hreached, hhops⟩, ?_⟩
    intro other hother
    rcases hfollowing other hother with hmem | hmem
    · rw [List.mem_append, List.mem_singleton] at hmem
      exact hmem.imp_right fun (heq : other = reached) => heq ▸ hreached
    · exact .inr hmem

/-- A hop to a node that is seen when its turn comes changes nothing. -/
theorem expand_skip {front back : List Hop} {hop : Hop}
    (h : hop.arrival.node ∈ search.seen ∨ ∃ other ∈ front, other.arrival.node = hop.arrival.node) :
    expand target node (front ++ hop :: back) search following =
      expand target node (front ++ back) search following := by
  rw [expand_append, expand_append]
  cases hfront : expand target node front search following with
  | mk found rest =>
    obtain ⟨search', following'⟩ := rest
    cases found
    · obtain ⟨hsubset, hhops, -⟩ := seen_expand hfront
      have hseen : hop.arrival.node ∈ search'.seen := by
        rcases h with h | ⟨other, hother, heq⟩
        · exact hsubset h
        · exact heq ▸ hhops other hother
      dsimp only
      rw [expand, if_pos hseen]
    · rfl

end Expand

/-! ## Hops that can be left out -/

/-- What is kept of some hops leaves out only hops to nodes that were seen, and hops that an earlier
one covers. -/
inductive Pruned (seen : List Text) : List Hop → List Hop → Prop where
  | nil : Pruned seen [] []
  | keep {full kept : List Hop} (h : Pruned seen full kept) (hop : Hop) :
      Pruned seen (full ++ [hop]) (kept ++ [hop])
  | seen {full kept : List Hop} (h : Pruned seen full kept) {hop : Hop}
      (hseen : hop.arrival.node ∈ seen) : Pruned seen (full ++ [hop]) kept
  | covered {full kept : List Hop} (h : Pruned seen full kept) {hop other : Hop}
      (hother : other ∈ full) (hsame : other.arrival.node = hop.arrival.node)
      (hle : byKey other hop) :
      Pruned seen (full ++ [hop]) kept

section Pruned

variable {seen : List Text} {full kept : List Hop}

theorem Pruned.append (h : Pruned seen full kept) (hops : List Hop) :
    Pruned seen (full ++ hops) (kept ++ hops) := by
  induction hops using List.reverseRecOn with
  | nil => simpa using h
  | append_singleton hops hop ih =>
    rw [← List.append_assoc, ← List.append_assoc]
    exact ih.keep hop

theorem Pruned.append_left (h : Pruned seen full kept) {hops : List Hop}
    (hhops : ∀ hop ∈ hops, hop.arrival.node ∈ seen ∨
      ∃ other ∈ full, other.arrival.node = hop.arrival.node ∧ byKey other hop) :
    Pruned seen (full ++ hops) kept := by
  induction hops using List.reverseRecOn with
  | nil => simpa using h
  | append_singleton hops hop ih =>
    rw [List.forall_mem_append] at hhops
    rw [← List.append_assoc]
    rcases hhops.2 hop List.mem_cons_self with hseen | ⟨other, hother, hsame, hle⟩
    · exact (ih hhops.1).seen hseen
    · exact (ih hhops.1).covered (List.mem_append_left _ hother) hsame hle

/-- What is left out makes no difference, and the last ones are left out first. -/
theorem Pruned.expand_eq {target node : Text} {search : Search} {following : List Text}
    (h : Pruned search.seen full kept) (rest : List Hop) :
    expand target node ((full ++ rest).insertionSort byKey) search following =
      expand target node ((kept ++ rest).insertionSort byKey) search following := by
  induction h generalizing rest with
  | nil => rfl
  | keep h hop ih =>
    rw [List.append_assoc, List.append_assoc]
    exact ih ([hop] ++ rest)
  | @seen full kept h hop hseen ih =>
    obtain ⟨front, back, hwith, hwithout, -⟩ :=
      StableSort.exists_insertionSort_append byKey full hop rest
    rw [List.append_assoc, List.singleton_append, hwith, expand_skip (.inl hseen), ← hwithout]
    exact ih rest
  | @covered full kept h hop other hother hsame hle ih =>
    obtain ⟨front, back, hwith, hwithout, hfront⟩ :=
      StableSort.exists_insertionSort_append byKey full hop rest
    rw [List.append_assoc, List.singleton_append, hwith,
      expand_skip (.inr ⟨other, hfront other hother hle, hsame⟩), ← hwithout]
    exact ih rest

end Pruned

/-! ## The hops that a search leaves out -/

section Hops

variable {graph : SymbolGraph} {policy : PathPolicy} {expanded : List (Bool × Text)}
  {seen base kept : List Text} {node target : Text}

theorem mem_ambiguousEdges {reference : AmbiguousReference} {edge : SymbolEdge} :
    edge ∈ graph.ambiguousEdges reference ↔ ∃ target ∈ graph.candidatesOf reference.name,
      reference.source.node ≠ target.node ∧
      edge = ⟨reference.source, target, reference.name, reference.relation, .ambiguous⟩ := by
  simp only [SymbolGraph.ambiguousEdges, SymbolEdge.new, List.mem_filterMap,
    Option.ite_none_right_eq_some, Option.some.injEq, @eq_comm _ edge]

theorem mem_leaving {reference : AmbiguousReference} {hop : Hop} :
    hop ∈ leaving graph reference ↔ ∃ target ∈ graph.candidatesOf reference.name,
      reference.source.node ≠ target.node ∧
      hop = ⟨⟨reference.source, target, reference.name, reference.relation, .ambiguous⟩, true⟩ := by
  constructor
  · intro h
    obtain ⟨edge, hedge, rfl⟩ := List.mem_map.mp h
    obtain ⟨target, htarget, hne, rfl⟩ := mem_ambiguousEdges.mp hedge
    exact ⟨target, htarget, hne, rfl⟩
  · rintro ⟨target, htarget, hne, rfl⟩
    exact List.mem_map.mpr ⟨_, mem_ambiguousEdges.mpr ⟨target, htarget, hne, rfl⟩, rfl⟩

theorem mem_arrivingAt {hop : Hop} :
    hop ∈ arrivingAt graph node ↔ ∃ name target, (name, target) ∈ graph.candidatesAt node ∧
      ∃ reference ∈ graph.referencesNamed name, reference.source.node ≠ target.node ∧
      hop = ⟨⟨reference.source, target, reference.name, reference.relation, .ambiguous⟩, false⟩ := by
  simp only [arrivingAt, SymbolGraph.ambiguousInto, ambiguousEdge, SymbolEdge.new, List.mem_map,
    List.mem_flatMap, List.mem_filterMap, Option.ite_none_right_eq_some, Option.some.injEq]
  constructor
  · rintro ⟨_, ⟨⟨name, target⟩, hentry, reference, hreference, hne, rfl⟩, rfl⟩
    exact ⟨name, target, hentry, reference, hreference, hne, rfl⟩
  · rintro ⟨name, target, hentry, reference, hreference, hne, rfl⟩
    exact ⟨_, ⟨⟨name, target⟩, hentry, reference, hreference, hne, rfl⟩, rfl⟩

/-- A name that was expanded has marked every node that it reaches. -/
structure Expanded (graph : SymbolGraph) (expanded : List (Bool × Text)) (seen : List Text) :
    Prop where
  forward : ∀ name, (true, name) ∈ expanded →
    ∀ target ∈ graph.candidatesOf name, target.node ∈ seen
  backward : ∀ name, (false, name) ∈ expanded →
    ∀ reference ∈ graph.referencesNamed name, reference.source.node ∈ seen

theorem Expanded.nil (graph : SymbolGraph) (seen : List Text) : Expanded graph [] seen where
  forward _ hname := by cases hname
  backward _ hname := by cases hname

/-- The references of a node stand together, and those of one relation and name by line. -/
structure Ordered (graph : SymbolGraph) : Prop where
  node : SortedByNode graph
  line : ∀ node, (graph.referencesFrom node).Pairwise fun x y =>
    x.relation = y.relation → x.name = y.name → x.source.line ≤ y.source.line

theorem takeReference_cases (expanded : List (Bool × Text)) (first : List AmbiguousReference)
    (reference : AmbiguousReference) :
    takeReference expanded first reference = first ++ [reference] ∨
      takeReference expanded first reference = first ∧ ((true, reference.name) ∈ expanded ∨
        ∃ held ∈ first, held.relation = reference.relation ∧ held.name = reference.name) := by
  unfold takeReference
  split_ifs with h
  · exact .inl rfl
  · refine .inr ⟨rfl, ?_⟩
    simpa [or_iff_not_imp_left] using h

theorem foldl_takeReference_subset (references : List AmbiguousReference) :
    references.foldl (takeReference expanded) [] ⊆ references := by
  induction references using List.reverseRecOn with
  | nil => exact List.Subset.refl _
  | append_singleton references reference ih =>
    rw [List.foldl_append, List.foldl_cons, List.foldl_nil]
    rcases takeReference_cases expanded (references.foldl (takeReference expanded) []) reference with
      htaken | ⟨hskipped, -⟩
    · rw [htaken]
      exact List.append_subset.mpr
        ⟨List.subset_append_of_subset_left _ ih, List.subset_append_right _ _⟩
    · rw [hskipped]
      exact List.subset_append_of_subset_left _ ih

theorem leaving_covered {held reference : AmbiguousReference}
    (hnode : held.source.node = reference.source.node)
    (hrelation : held.relation = reference.relation) (hname : held.name = reference.name)
    (hline : held.source.line ≤ reference.source.line) {hop : Hop}
    (h : hop ∈ leaving graph reference) :
    ∃ other ∈ leaving graph held, other.arrival.node = hop.arrival.node ∧ byKey other hop := by
  obtain ⟨target, htarget, hne, rfl⟩ := mem_leaving.mp h
  refine ⟨_, mem_leaving.mpr ⟨target, hname ▸ htarget, hnode ▸ hne, rfl⟩, rfl, ?_⟩
  simp only [byKey, SymbolEdge.cmpSortKey, hnode, hrelation, hname, ReflCmp.compare_self,
    Ordering.eq_then, Ordering.then_eq]
  exact Nat.isLE_compare.mpr hline

theorem pruned_references {full kept : List Hop} (hbase : Pruned seen full kept)
    (hexpanded : Expanded graph expanded seen) {references : List AmbiguousReference}
    (hnode : ∀ reference ∈ references, reference.source.node = node)
    (hline : references.Pairwise fun x y =>
      x.relation = y.relation → x.name = y.name → x.source.line ≤ y.source.line) :
    Pruned seen (full ++ references.flatMap (leaving graph))
      (kept ++ (references.foldl (takeReference expanded) []).flatMap (leaving graph)) := by
  induction references using List.reverseRecOn with
  | nil => simpa using hbase
  | append_singleton references reference ih =>
    rw [List.forall_mem_append] at hnode
    obtain ⟨hbefore, -, hlast⟩ := List.pairwise_append.mp hline
    have hpruned := ih hnode.1 hbefore
    have hreference := hnode.2 reference List.mem_cons_self
    rw [List.foldl_append, List.foldl_cons, List.foldl_nil, List.flatMap_append,
      List.flatMap_singleton, ← List.append_assoc]
    rcases takeReference_cases expanded (references.foldl (takeReference expanded) []) reference with
      htaken | ⟨hskipped, hreason⟩
    · rw [htaken, List.flatMap_append, List.flatMap_singleton, ← List.append_assoc]
      exact hpruned.append _
    · rw [hskipped]
      refine hpruned.append_left fun hop hhop => ?_
      rcases hreason with hname | ⟨held, hheld, hrelation, hname⟩
      · obtain ⟨target, htarget, -, rfl⟩ := mem_leaving.mp hhop
        exact .inl (hexpanded.forward _ hname target htarget)
      · have hmem := foldl_takeReference_subset references hheld
        have hline := hlast held hmem reference List.mem_cons_self hrelation hname
        obtain ⟨other, hother, hsame, hle⟩ :=
          leaving_covered ((hnode.1 held hmem).trans hreference.symm) hrelation hname hline hhop
        have hcovers := List.mem_flatMap.mpr ⟨held, hmem, hother⟩
        exact .inr ⟨other, List.mem_append_right _ hcovers, hsame, hle⟩

theorem source_of_mem_referencesFrom (h : Ordered graph) {reference : AmbiguousReference}
    (hreference : reference ∈ graph.referencesFrom node) : reference.source.node = node := by
  rw [referencesFrom_eq h.node, List.mem_filter] at hreference
  simpa using hreference.2

theorem pruned_ambiguousHops (h : Ordered graph) (hexpanded : Expanded graph expanded seen)
    (bound : List Hop) :
    Pruned seen
      (bound ++ (arrivingAt graph node ++ (graph.referencesFrom node).flatMap (leaving graph)))
      (bound ++ (ambiguousHops graph expanded node).1) := by
  have hbound : Pruned seen bound bound := by simpa using Pruned.nil.append bound
  rw [ambiguousHops, ← List.append_assoc, ← List.append_assoc]
  refine pruned_references ?_ hexpanded (fun _ => source_of_mem_referencesFrom h) (h.line node)
  split_ifs with harriving
  · -- every name that arrives here was expanded
    rw [List.append_nil]
    refine hbound.append_left fun hop hhop => .inl ?_
    obtain ⟨name, target, hentry, reference, hreference, -, rfl⟩ := mem_arrivingAt.mp hhop
    have hname : (false, name) ∈ expanded := by
      by_contra hfresh
      exact List.filter_eq_nil_iff.mp harriving (false, name)
        (List.mem_map.mpr ⟨_, hentry, rfl⟩) (decide_eq_true hfresh)
    exact hexpanded.backward name hname reference hreference
  · exact hbound.append _

theorem expand_hopsAt (h : Ordered graph) (search : Search)
    (hexpanded : Expanded graph expanded search.seen) (following : List Text) :
    expand target node (hopsAt graph policy expanded node).1 search following =
      expand target node (allHops graph policy node) search following := by
  unfold hopsAt allHops
  split_ifs
  · have hpruned : Pruned search.seen _
        (boundHops graph policy node ++ (ambiguousHops graph expanded node).1) :=
      pruned_ambiguousHops h hexpanded _
    simpa using (hpruned.expand_eq []).symm
  · rfl

/-- The names of a node are expanded once its hops were tried. -/
theorem expanded_hopsAt (h : Ordered graph) (hexpanded : Expanded graph expanded seen)
    (hnode : node ∈ seen) {seen' : List Text} (hsubset : seen ⊆ seen')
    (hhops : ∀ hop ∈ allHops graph policy node, hop.arrival.node ∈ seen') :
    Expanded graph (hopsAt graph policy expanded node).2 seen' := by
  unfold hopsAt
  unfold allHops at hhops
  split_ifs at hhops ⊢
  · simp only [List.mem_insertionSort, List.mem_append] at hhops
    constructor
    · intro name hname target htarget
      simp only [ambiguousHops, List.mem_append, List.mem_map, List.mem_filter] at hname
      rcases hname with (hname | ⟨reference, hreference, heq⟩) | ⟨⟨entry, -, heq⟩, -⟩
      · exact hsubset (hexpanded.forward name hname target htarget)
      · obtain rfl : reference.name = name := by simpa using heq
        have hmem := foldl_takeReference_subset _ hreference
        by_cases hne : reference.source.node = target.node
        · rw [← hne, source_of_mem_referencesFrom h hmem]
          exact hsubset hnode
        · exact hhops _ (.inr (.inr (List.mem_flatMap.mpr
            ⟨reference, hmem, mem_leaving.mpr ⟨target, htarget, hne, rfl⟩⟩)))
      · cases heq
    · intro name hname reference hreference
      simp only [ambiguousHops, List.mem_append, List.mem_map, List.mem_filter] at hname
      rcases hname with (hname | ⟨other, -, heq⟩) | ⟨⟨entry, hentry, heq⟩, -⟩
      · exact hsubset (hexpanded.backward name hname reference hreference)
      · cases heq
      · obtain rfl : entry.1 = name := by simpa using heq
        have htarget : entry.2.node = node := by
          rw [candidatesAt_eq, List.mem_filter] at hentry
          simpa using hentry.2
        by_cases hne : reference.source.node = entry.2.node
        · rw [hne, htarget]
          exact hsubset hnode
        · exact hhops _ (.inr (.inl (mem_arrivingAt.mpr
            ⟨entry.1, entry.2, hentry, reference, hreference, hne, rfl⟩)))
  · exact ⟨fun name hname target htarget => hsubset (hexpanded.forward name hname target htarget),
      fun name hname reference hreference =>
        hsubset (hexpanded.backward name hname reference hreference)⟩

end Hops

/-! ## The two searches go together -/

section Together

variable {σ : Type} {graph : SymbolGraph} {policy : PathPolicy} {source target : Text}
  {bounds : PathBounds σ}

/-- A search that keeps no account of the names that were expanded. -/
def plain (search : Search) : Search := { search with expanded := [] }

def Level.plain : Level → Level
  | .found search => .found (Path.plain search)
  | .exhausted search => .exhausted (Path.plain search)
  | .next search following => .next (Path.plain search) following

theorem expand_expanded (target node : Text) (hops : List Hop) (search : Search)
    (following : List Text) (expanded : List (Bool × Text)) :
    expand target node hops { search with expanded } following =
      ((expand target node hops search following).1,
        { (expand target node hops search following).2.1 with expanded },
        (expand target node hops search following).2.2) := by
  induction hops generalizing search following with
  | nil => rfl
  | cons hop hops ih =>
    rw [expand, expand]
    dsimp only
    split_ifs
    · exact ih search following
    · rfl
    · exact ih { search with
        previous := (hop.arrival.node, node, hop) :: search.previous
        seen := hop.arrival.node :: search.seen } _

/-- What a search knows about the names holds after each node. -/
theorem expanded_expand (h : Ordered graph) {node : Text} {search after : Search}
    {following following' : List Text} {visited : Nat}
    (hexpanded : Expanded graph search.expanded search.seen) (hnode : node ∈ search.seen)
    (hfollowing : following ⊆ search.seen)
    (hstep : expand target node (hopsAt graph policy search.expanded node).1
      { search with visited, expanded := (hopsAt graph policy search.expanded node).2 } following =
        (false, after, following')) :
    Expanded graph after.expanded after.seen ∧ search.seen ⊆ after.seen ∧
      following' ⊆ after.seen := by
  have hkept := (expand_keeps target node (hopsAt graph policy search.expanded node).1
    { search with visited, expanded := (hopsAt graph policy search.expanded node).2 } following).2
  rw [hstep] at hkept
  dsimp only at hkept
  rw [expand_hopsAt h { search with visited, expanded := _ } hexpanded] at hstep
  obtain ⟨hsubset, hhops, hafter⟩ := seen_expand hstep
  refine ⟨?_, hsubset, fun other hother => ?_⟩
  · rw [hkept]
    exact expanded_hopsAt h hexpanded hnode hsubset hhops
  · exact (hafter other hother).elim (fun hmem => hsubset (hfollowing hmem)) id

theorem level_keeps (h : Ordered graph) {frontier : List Text} {search after : Search}
    {following following' : List Text}
    (hexpanded : Expanded graph search.expanded search.seen) (hfrontier : frontier ⊆ search.seen)
    (hfollowing : following ⊆ search.seen)
    (hlevel : level (hopsAt graph policy) target bounds frontier search following =
      .ok (.next after following')) :
    Expanded graph after.expanded after.seen ∧ following' ⊆ after.seen := by
  induction frontier generalizing search following with
  | nil =>
    cases hlevel
    exact ⟨hexpanded, hfollowing⟩
  | cons node frontier ih =>
    obtain ⟨hnode, hfrontier⟩ := List.cons_subset.mp hfrontier
    rw [level] at hlevel
    split at hlevel
    · cases hlevel
    dsimp only at hlevel
    split_ifs at hlevel
    · cases hlevel
    split at hlevel
    · cases hlevel
    · rename_i hstep
      obtain ⟨hexpanded, hsubset, hfollowing⟩ :=
        expanded_expand h hexpanded hnode hfollowing hstep
      exact ih hexpanded (List.Subset.trans hfrontier hsubset) hfollowing hlevel

theorem level_plain (h : Ordered graph) {frontier : List Text} {search : Search}
    {following : List Text} (hexpanded : Expanded graph search.expanded search.seen)
    (hfrontier : frontier ⊆ search.seen) (hfollowing : following ⊆ search.seen) :
    level (everyHop graph policy) target bounds frontier (plain search) following =
      (level (hopsAt graph policy) target bounds frontier search following).map Level.plain := by
  induction frontier generalizing search following with
  | nil => rfl
  | cons node frontier ih =>
    obtain ⟨hnode, hfrontier⟩ := List.cons_subset.mp hfrontier
    rw [level, level]
    dsimp only [plain]
    cases bounds.checks search.visited with
    | error stop => rfl
    | ok _ =>
      dsimp only
      by_cases hmax : bounds.maxVisited < search.visited + 1
      · rw [if_pos hmax, if_pos hmax]
        rfl
      · rw [if_neg hmax, if_neg hmax, everyHop]
        have hsame := expand_expanded target node (allHops graph policy node)
          { search with
            visited := search.visited + 1
            expanded := (hopsAt graph policy search.expanded node).2 } following []
        dsimp only at hsame ⊢
        rw [hsame, ← expand_hopsAt h
          { search with
            visited := search.visited + 1
            expanded := (hopsAt graph policy search.expanded node).2 } hexpanded]
        cases hstep : expand target node (hopsAt graph policy search.expanded node).1
          { search with
            visited := search.visited + 1
            expanded := (hopsAt graph policy search.expanded node).2 } following with
        | mk found rest =>
          obtain ⟨after, following'⟩ := rest
          cases found
          · obtain ⟨hexpanded, hsubset, hfollowing⟩ :=
              expanded_expand h hexpanded hnode hfollowing hstep
            exact ih hexpanded (List.Subset.trans hfrontier hsubset) hfollowing
          · rfl

theorem run_eq {hopsAt : List (Bool × Text) → Text → List Hop × List (Bool × Text)}
    {search : Search} {frontier : List Text} (hfrontier : frontier ≠ []) :
    run hopsAt source target bounds search frontier =
      match level hopsAt target bounds frontier search [] with
      | .error stop => .error stop
      | .ok (.found search) =>
        .ok ((unwind source search.previous search.previous.length target []).map fun hops =>
          ⟨hops, true, search.visited, false⟩)
      | .ok (.exhausted search) => .ok (some ⟨[], false, search.visited, true⟩)
      | .ok (.next search following) => run hopsAt source target bounds search following := by
  rw [run, dif_neg hfrontier]
  split <;> simp_all only

theorem run_nil {hopsAt : List (Bool × Text) → Text → List Hop × List (Bool × Text)}
    (search : Search) :
    run hopsAt source target bounds search [] = .ok (some ⟨[], false, search.visited, false⟩) := by
  rw [run, dif_pos rfl]

/-- From every entry of its loop, the search gives what a search over all hops gives. -/
theorem run_plain (h : Ordered graph) {frontier : List Text} {search : Search}
    (hexpanded : Expanded graph search.expanded search.seen) (hfrontier : frontier ⊆ search.seen) :
    run (everyHop graph policy) source target bounds (plain search) frontier =
      run (hopsAt graph policy) source target bounds search frontier := by
  fun_induction run (hopsAt graph policy) source target bounds search frontier with
  | case1 search => exact run_nil (plain search)
  | case2 search frontier hne stop hlevel =>
    rw [run_eq hne, level_plain h hexpanded hfrontier (List.nil_subset _), hlevel]
    rfl
  | case3 search frontier hne found hlevel =>
    rw [run_eq hne, level_plain h hexpanded hfrontier (List.nil_subset _), hlevel]
    rfl
  | case4 search frontier hne exhausted hlevel =>
    rw [run_eq hne, level_plain h hexpanded hfrontier (List.nil_subset _), hlevel]
    rfl
  | case5 search frontier hne after following hlevel ih =>
    rw [run_eq hne, level_plain h hexpanded hfrontier (List.nil_subset _), hlevel]
    obtain ⟨hexpanded, hfollowing⟩ :=
      level_keeps h hexpanded hfrontier (List.nil_subset _) hlevel
    exact ih hexpanded hfollowing

end Together

/-! ## The references of a built graph -/

theorem build_ordered (scopes : Scopes) : Ordered (SymbolGraph.build scopes) where
  node := build_sortedByNode scopes
  line node := by
    rw [referencesFrom_eq (build_sortedByNode scopes)]
    have hsorted : (SymbolGraph.build scopes).ambiguous.Pairwise fun x y =>
        (AmbiguousReference.cmpTotal x y).isLE = true :=
      (List.pairwise_insertionSort _ _).sublist (List.destutter_sublist _ _)
    refine (hsorted.filter _).imp_of_mem fun {x y} hx hy hle hrelation hname => ?_
    have hxnode : x.source.node = node := by simpa using (List.mem_filter.mp hx).2
    have hynode : y.source.node = node := by simpa using (List.mem_filter.mp hy).2
    simp only [AmbiguousReference.cmpTotal, hxnode, hynode, hrelation, hname, ReflCmp.compare_self,
      Ordering.eq_then] at hle
    exact Nat.isLE_compare.mp (Ordering.isLE_left_of_isLE_then hle)

/-- Trying each ambiguous name once makes no difference to what a search finds. -/
theorem shortestPath_eq_plainPath (scopes : Scopes) {σ : Type} (source target : Text)
    (policy : PathPolicy) (bounds : PathBounds σ) :
    shortestPath (SymbolGraph.build scopes) source target policy bounds =
      plainPath (SymbolGraph.build scopes) source target policy bounds := by
  unfold shortestPath plainPath
  split_ifs
  · rfl
  · exact (run_plain (build_ordered scopes) (.nil _ _) (List.Subset.refl _)).symm

end Agentless.Graph.Path
