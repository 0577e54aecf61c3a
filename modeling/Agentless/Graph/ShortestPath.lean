import Agentless.Graph.AmbiguousDegrees

/-!
# The fewest-hop path between two nodes

Edges are walked both ways, breadth first. The hops of each node are tried in sort-key order, and
the ambiguous edges of a name are tried once: a name that was expanded has marked every node that it
reaches. A search of its own definition tries every edge of every node, for comparison.
-/

namespace Agentless.Graph

open Std

/-- By source node, target node, relation, tier, name, source line and target line. -/
def SymbolEdge.cmpSortKey (x y : SymbolEdge) : Ordering :=
  (compare x.source.node y.source.node).then <| (compare x.target.node y.target.node).then <|
    (compare x.relation y.relation).then <| (compare x.tier y.tier).then <|
    (compare x.name y.name).then <| (compare x.source.line y.source.line).then <|
    compare x.target.line y.target.line

namespace Path

/-- Which tiers that bind nothing a path may walk. -/
structure PathPolicy where
  includeUnique : Bool := false
  includeAmbiguous : Bool := false
deriving DecidableEq, Repr

/-- One step along a path, walked with the edge or against it. -/
structure Hop where
  edge : SymbolEdge
  forward : Bool
deriving DecidableEq, Repr

def Hop.origin (hop : Hop) : Endpoint := if hop.forward then hop.edge.source else hop.edge.target

def Hop.arrival (hop : Hop) : Endpoint := if hop.forward then hop.edge.target else hop.edge.source

structure PathResult where
  hops : List Hop
  found : Bool
  visited : Nat
  exhausted : Bool
deriving DecidableEq, Repr

/-- How far a search may go. The `n`-th check of the deadline is `checks n`. -/
structure PathBounds (σ : Type) where
  maxVisited : Nat
  checks : Nat → Except σ Unit

/-- The state of a search. A name that was expanded is marked by its direction. -/
structure Search where
  previous : List (Text × Text × Hop) := []
  seen : List Text
  expanded : List (Bool × Text) := []
  visited : Nat := 0

/-! ## The hops of a node -/

section Hops

variable (graph : SymbolGraph) (policy : PathPolicy)

/-- Each usable edge, walked forward from its source and backward from its target. -/
def undirected : TreeMap Text (List (Nat × Bool)) compare :=
  Collect.pushAll Prod.fst Prod.snd <| graph.edges.zipIdx.flatMap fun (edge, at_) =>
    if edge.tier = .unique ∧ policy.includeUnique = false then []
    else [(edge.source.node, at_, true), (edge.target.node, at_, false)]

def boundHops (node : Text) : List Hop :=
  ((undirected graph policy)[node]?.getD []).filterMap fun (at_, forward) =>
    graph.edges[at_]?.map fun edge => ⟨edge, forward⟩

/-- Takes a reference when its name is fresh, and only the first one of a relation and a name. -/
def takeReference (expanded : List (Bool × Text)) (first : List AmbiguousReference)
    (reference : AmbiguousReference) : List AmbiguousReference :=
  if (true, reference.name) ∉ expanded ∧
      ¬first.any fun held => held.relation = reference.relation ∧ held.name = reference.name then
    first ++ [reference]
  else first

def leaving (reference : AmbiguousReference) : List Hop :=
  (graph.ambiguousEdges reference).map fun edge => ⟨edge, true⟩

def arrivingAt (node : Text) : List Hop :=
  (graph.ambiguousInto node).map fun edge => ⟨edge, false⟩

/-- Every ambiguous edge that arrives, once a name is new here, and the edges of the references
that are taken. -/
def ambiguousHops (expanded : List (Bool × Text)) (node : Text) : List Hop × List (Bool × Text) :=
  let arriving :=
    ((graph.candidatesAt node).map fun (name, _) => (false, name)).filter (· ∉ expanded)
  let first := (graph.referencesFrom node).foldl (takeReference expanded) []
  ((if arriving = [] then [] else arrivingAt graph node) ++ first.flatMap (leaving graph),
    expanded ++ first.map (fun reference => (true, reference.name)) ++ arriving)

def byKey (x y : Hop) : Prop := (x.edge.cmpSortKey y.edge).isLE = true

instance : DecidableRel byKey := fun _ _ => inferInstanceAs (Decidable (_ = true))

def hopsAt (expanded : List (Bool × Text)) (node : Text) : List Hop × List (Bool × Text) :=
  if policy.includeAmbiguous then
    let (hops, expanded) := ambiguousHops graph expanded node
    ((boundHops graph policy node ++ hops).insertionSort byKey, expanded)
  else (boundHops graph policy node, expanded)

/-- Every hop of a node, whatever was expanded before. -/
def allHops (node : Text) : List Hop :=
  if policy.includeAmbiguous then
    (boundHops graph policy node ++ (arrivingAt graph node ++
      (graph.referencesFrom node).flatMap (leaving graph))).insertionSort byKey
  else boundHops graph policy node

def everyHop (expanded : List (Bool × Text)) (node : Text) : List Hop × List (Bool × Text) :=
  (allHops graph policy node, expanded)

end Hops

/-! ## The search -/

section Loop

variable {σ : Type} (hopsAt : List (Bool × Text) → Text → List Hop × List (Bool × Text))
  (source target : Text)

/-- Marks each new neighbour of `node` seen, and tells whether the target is one. -/
def expand (node : Text) : List Hop → Search → List Text → Bool × Search × List Text
  | [], search, following => (false, search, following)
  | hop :: hops, search, following =>
    let reached := hop.arrival.node
    if reached ∈ search.seen then expand node hops search following
    else
      let search := { search with
        previous := (reached, node, hop) :: search.previous
        seen := reached :: search.seen }
      if reached = target then (true, search, following)
      else expand node hops search (following ++ [reached])

inductive Level where
  | found (search : Search)
  | exhausted (search : Search)
  | next (search : Search) (following : List Text)

def level (bounds : PathBounds σ) : List Text → Search → List Text → Except σ Level
  | [], search, following => .ok (.next search following)
  | node :: frontier, search, following =>
    match bounds.checks search.visited with
    | .error stop => .error stop
    | .ok () =>
      let search := { search with visited := search.visited + 1 }
      if bounds.maxVisited < search.visited then .ok (.exhausted search)
      else
        let (hops, expanded) := hopsAt search.expanded node
        match expand target node hops { search with expanded } following with
        | (true, search, _) => .ok (.found search)
        | (false, search, following) => level bounds frontier search following

/-- Walks the map back to the source. A node that the map does not hold gives none. -/
def unwind (previous : List (Text × Text × Hop)) : Nat → Text → List Hop → Option (List Hop)
  | fuel, node, hops =>
    if node = source then some hops.reverse
    else match fuel with
      | 0 => none
      | fuel + 1 => (previous.lookup node).bind fun (parent, hop) =>
          unwind previous fuel parent (hops ++ [hop])

theorem expand_keeps (node : Text) (hops : List Hop) (search : Search) (following : List Text) :
    (expand target node hops search following).2.1.visited = search.visited ∧
      (expand target node hops search following).2.1.expanded = search.expanded := by
  induction hops generalizing search following with
  | nil => exact ⟨rfl, rfl⟩
  | cons hop hops ih =>
    rw [expand]
    dsimp only
    split_ifs
    · exact ih search following
    · exact ⟨rfl, rfl⟩
    · exact ih _ _

theorem visited_level {bounds : PathBounds σ} {frontier following following' : List Text}
    {search search' : Search}
    (h : level hopsAt target bounds frontier search following = .ok (.next search' following')) :
    search'.visited = search.visited + frontier.length ∧
      (frontier ≠ [] → search'.visited ≤ bounds.maxVisited) := by
  induction frontier generalizing search following with
  | nil =>
    cases h
    simp
  | cons node frontier ih =>
    rw [level] at h
    split at h
    · cases h
    dsimp only at h
    split_ifs at h with hmax
    · cases h
    split at h
    · cases h
    · rename_i after following'' hexpand
      obtain ⟨hvisited, hle⟩ := ih h
      have hsame := (expand_keeps target node (hopsAt search.expanded node).1
        { search with
          visited := search.visited + 1
          expanded := (hopsAt search.expanded node).2 } following).1
      rw [hexpand] at hsame
      dsimp only at hsame
      rw [List.length_cons]
      refine ⟨by omega, fun _ => ?_⟩
      cases frontier with
      | nil => simp only [List.length_nil] at hvisited; omega
      | cons next frontier => exact hle (List.cons_ne_nil next frontier)

/-- Goes level by level until the target is reached or a bound is. There is no result when the way
back to the source is lost. -/
def run (bounds : PathBounds σ) (search : Search) (frontier : List Text) :
    Except σ (Option PathResult) :=
  if _hfrontier : frontier = [] then .ok (some ⟨[], false, search.visited, false⟩)
  else
    match _hlevel : level hopsAt target bounds frontier search [] with
    | .error stop => .error stop
    | .ok (.found search) =>
      .ok ((unwind source search.previous search.previous.length target []).map fun hops =>
        ⟨hops, true, search.visited, false⟩)
    | .ok (.exhausted search) => .ok (some ⟨[], false, search.visited, true⟩)
    | .ok (.next search following) => run bounds search following
termination_by bounds.maxVisited + 1 - search.visited
decreasing_by
  obtain ⟨hvisited, hle⟩ := visited_level hopsAt target _hlevel
  have hmax := hle _hfrontier
  have hpos := List.length_pos_iff.mpr _hfrontier
  omega

end Loop

section Paths

variable {σ : Type} (graph : SymbolGraph) (source target : Text) (policy : PathPolicy)
  (bounds : PathBounds σ)

def shortestPath : Except σ (Option PathResult) :=
  if source = target then .ok (some ⟨[], true, 1, false⟩)
  else run (hopsAt graph policy) source target bounds { seen := [source] } [source]

/-- The same search, which tries every hop of each node. -/
def plainPath : Except σ (Option PathResult) :=
  if source = target then .ok (some ⟨[], true, 1, false⟩)
  else run (everyHop graph policy) source target bounds { seen := [source] } [source]

end Paths

end Path

end Agentless.Graph
