import Agentless.Graph.AmbiguousDegrees
import Agentless.Graph.ComponentsExact
import Agentless.Library.Search

/-!
# Import cycles and import chains

The strongly connected components of two or more files that the resolved imports prove, each with
one shortest chain that closes it, and the shortest chain of import edges from one file to another.
Both chains come from a breadth-first search and a walk back along the nodes that it came by.
-/

namespace Agentless.Graph

open Text Syntax Std Search

/-! ## The graph's views -/

/-- The module-level import edges alone, with no reference resolved. -/
def SymbolGraph.imports (scopes : Scopes) : SymbolGraph :=
  (scopes.files.zipIdx.foldl (fun parts (file, position) =>
    Parts.importEdges scopes parts position file) {}).finish

/-- The scanned paths, in path order. -/
def Scopes.filePaths (scopes : Scopes) : List Text :=
  (scopes.files.map (·.path)).insertionSort (· ≤ ·)

namespace SymbolGraph

variable (graph : SymbolGraph)

/-- The edges leaving `node`, as a slice of the sorted ones. -/
def outgoing (node : Text) : List SymbolEdge :=
  let start := partitionPoint (fun edge => (compare edge.source.node node).isLT) graph.edges
  let stop := partitionPoint (fun edge => (compare edge.source.node node).isLE) graph.edges
  (graph.edges.drop start).take (stop - start)

/-- The module-level import edges. -/
def importEdges : List SymbolEdge := graph.edges.filter (·.relation = .imports)

/-- Each file that imports one, with the files it imports, in order and once each. -/
def importAdjacency : Adjacency Text :=
  (Collect.pushAll (·.source.path) (·.target.path) graph.importEdges).toList.map
    fun (source, targets) => (source, sortedDistinct compare targets)

end SymbolGraph

/-! ## Cycles -/

/-- One import cycle: a chain of files that closes on its first file, and every file of the
strongly connected component it runs through. -/
structure Cycle where
  files : List Text
  members : List Text
deriving DecidableEq, Repr

def smallestCycle : Nat := 2

def chainBack (node start : Text) (previous : List (Text × Text)) : Option (List Text) :=
  back id start previous previous.length node [node]

/-- The targets of all edges. -/
def targetPool (adjacency : Adjacency Text) : Finset Text := (adjacency.flatMap Prod.snd).toFinset

/-- The edges that leave a node, each by its source. -/
def edgeSteps (adjacency : Adjacency Text) (node : Text) : List (Text × Text) :=
  (neighbours adjacency node).map fun child => (node, child)

theorem edgeSteps_pool (adjacency : Adjacency Text) (node : Text) :
    ∀ step ∈ edgeSteps adjacency node, step.2 ∈ targetPool adjacency := by
  intro step hstep
  obtain ⟨child, hchild, rfl⟩ := List.mem_map.mp hstep
  exact List.mem_toFinset.mpr (Tarjan.mem_targets adjacency hchild)

/-- Breadth first from the first member over sorted edges inside the component: the shortest cycle
through that member. -/
def cycleChain (members : List Text) (adjacency : Adjacency Text) : Option (List Text) :=
  members.head?.bind fun start =>
    (search (members.contains ·) start (edgeSteps adjacency) (targetPool adjacency)
      (edgeSteps_pool adjacency) ⟨[], [start]⟩).bind fun (node, previous) =>
        chainBack node start previous

/-- The import cycles of the graph, ordered by chain length, then by chain. -/
def importCycles (files : List Text) (graph : SymbolGraph) : List Cycle :=
  let adjacency := graph.importAdjacency
  let cycles := ((components files adjacency).filter (smallestCycle ≤ ·.length)).filterMap
    fun members => (cycleChain members adjacency).map fun files => ⟨files, members⟩
  cycles.insertionSort fun left right =>
    toLex (left.files.length, left.files) ≤ toLex (right.files.length, right.files)

/-! ## Chains -/

def edgesBack (last : SymbolEdge) (from_ : Text) (previous : List (Text × SymbolEdge)) :
    Option (List SymbolEdge) :=
  back (·.source.path) from_ previous previous.length last.source.path [last]

/-- The import edges leaving a node that `keeps` accepts, each with the file it leads to. -/
def keptSteps (graph : SymbolGraph) (keeps : Text → Nat → Bool) (node : Text) :
    List (SymbolEdge × Text) :=
  ((graph.outgoing node).filter fun edge =>
    edge.relation = .imports && keeps edge.source.path edge.source.line).map
      fun edge => (edge, edge.target.path)

def SymbolGraph.targetPool (graph : SymbolGraph) : Finset Text :=
  (graph.edges.map (·.target.path)).toFinset

theorem keptSteps_pool (graph : SymbolGraph) (keeps : Text → Nat → Bool) (node : Text) :
    ∀ step ∈ keptSteps graph keeps node, step.2 ∈ graph.targetPool := by
  intro step hstep
  obtain ⟨edge, hedge, rfl⟩ := List.mem_map.mp hstep
  have hmem : edge ∈ graph.edges :=
    List.mem_of_mem_drop (List.mem_of_mem_take (List.mem_of_mem_filter hedge))
  exact List.mem_toFinset.mpr (List.mem_map_of_mem hmem)

/-- The shortest chain of import edges from one file to another, over the edges whose source path
and line `keeps` accepts. -/
def importChain (graph : SymbolGraph) (from_ to_ : Text) (keeps : Text → Nat → Bool) :
    Option (List SymbolEdge) :=
  (search (· ≠ from_) to_ (keptSteps graph keeps) graph.targetPool (keptSteps_pool graph keeps)
    ⟨[], [from_]⟩).bind fun (edge, previous) => edgesBack edge from_ previous

end Agentless.Graph

/-!
## The cycles and chains are shortest

1. Every import edge of a built graph joins two scanned files, by their paths.
2. Each cycle reported is a shortest one through the smallest file of its component, and each
   component with a cycle has exactly one.
3. A chain reported is a shortest one, and there is one whenever any leads to the file.
-/

namespace Agentless.Graph

open Text Syntax Std Search

/-! ## Built graphs -/

/-- The graphs that a scan gives. -/
inductive SymbolGraph.Built (scopes : Scopes) : SymbolGraph → Prop where
  | build : Built scopes (SymbolGraph.build scopes)
  | imports : Built scopes (SymbolGraph.imports scopes)

/-- An import edge joins two scanned files. -/
structure JoinsFiles (scopes : Scopes) (edge : SymbolEdge) : Prop where
  node_eq : edge.source.node = edge.source.path
  ne : edge.source.path ≠ edge.target.path
  source_mem : edge.source.path ∈ scopes.filePaths
  target_mem : edge.target.path ∈ scopes.filePaths

def ImportsJoinFiles (scopes : Scopes) (edges : List SymbolEdge) : Prop :=
  ∀ edge ∈ edges, edge.relation = .imports → JoinsFiles scopes edge

section Built

variable {scopes : Scopes}

theorem mem_filePaths {path : Text} :
    path ∈ scopes.filePaths ↔ ∃ file ∈ scopes.files, file.path = path := by
  rw [Scopes.filePaths, List.mem_insertionSort, List.mem_map]

theorem importEdges_joinFiles {parts : Parts} {position : Nat} {file : FileFacts}
    (h : ImportsJoinFiles scopes parts.edges) (hfile : file ∈ scopes.files) :
    ImportsJoinFiles scopes (parts.importEdges scopes position file).edges := by
  intro edge hedge himports
  obtain hedge | hedge := List.mem_append.mp hedge
  · exact h edge hedge himports
  · obtain ⟨⟨module, line, target⟩, -, hedge⟩ := List.mem_filterMap.mp hedge
    obtain ⟨reached, hreached, hedge⟩ := Option.bind_eq_some_iff.mp hedge
    obtain ⟨at_, -, hreached⟩ := Option.bind_eq_some_iff.mp hreached
    obtain ⟨hne, hedge⟩ := Option.ite_none_right_eq_some.mp hedge
    cases hedge
    exact ⟨rfl, hne, mem_filePaths.mpr ⟨file, hfile, rfl⟩,
      mem_filePaths.mpr ⟨reached, List.mem_of_getElem? hreached, rfl⟩⟩

theorem symbolLinks_relation {file : FileFacts} {link : Link} (h : link ∈ symbolLinks scopes file) :
    link.relation ≠ .imports := by
  obtain h | h := List.mem_append.mp h
  · obtain ⟨site, -, rfl⟩ := List.mem_map.mp h
    simp
  · obtain ⟨symbol, -, h⟩ := List.mem_flatMap.mp h
    obtain ⟨base, -, h⟩ := List.mem_filterMap.mp h
    obtain ⟨-, h⟩ := Option.ite_none_left_eq_some.mp h
    obtain ⟨found, -, rfl⟩ := Option.map_eq_some_iff.mp h
    simp

theorem link_joinFiles {parts : Parts} (h : ImportsJoinFiles scopes parts.edges) {link : Link}
    (hlink : link.relation ≠ .imports) : ImportsJoinFiles scopes (parts.link link).edges := by
  unfold Parts.link
  split_ifs
  · intro edge hedge himports
    obtain hedge | hedge := List.mem_append.mp hedge
    · exact h edge hedge himports
    · obtain ⟨candidate, -, hedge⟩ := List.mem_filterMap.mp hedge
      obtain ⟨-, hedge⟩ := Option.ite_none_right_eq_some.mp hedge
      cases hedge
      exact absurd himports hlink
  · dsimp only
    split_ifs <;> exact h

theorem addFile_joinFiles {parts : Parts} {position : Nat} {file : FileFacts}
    (h : ImportsJoinFiles scopes parts.edges) (hfile : file ∈ scopes.files) :
    ImportsJoinFiles scopes (parts.addFile scopes position file).edges := by
  have himports : ImportsJoinFiles scopes (parts.importEdges scopes position file).edges :=
    importEdges_joinFiles h hfile
  unfold Parts.addFile
  dsimp only
  split_ifs
  · refine List.foldlRecOn (motive := fun parts : Parts => ImportsJoinFiles scopes parts.edges) _
      Parts.link himports fun parts h link hlink => ?_
    exact link_joinFiles h (symbolLinks_relation hlink)
  · exact himports

theorem finish_joinFiles {parts : Parts} (h : ImportsJoinFiles scopes parts.edges) :
    ImportsJoinFiles scopes parts.finish.edges :=
  fun edge hedge => h edge (mem_sortedDistinct.mp hedge)

theorem fst_mem_of_mem_zipIdx {α : Type} {items : List α} {entry : α × Nat}
    (h : entry ∈ items.zipIdx) : entry.1 ∈ items :=
  List.mem_of_getElem? (List.mem_zipIdx_iff_getElem?.mp h)

theorem SymbolGraph.Built.joinFiles {graph : SymbolGraph} (h : graph.Built scopes) :
    ImportsJoinFiles scopes graph.edges := by
  cases h with
  | build =>
    refine finish_joinFiles (List.foldlRecOn (motive := fun parts : Parts =>
      ImportsJoinFiles scopes parts.edges) scopes.files.zipIdx _ nofun ?_)
    exact fun parts h entry hentry => addFile_joinFiles h (fst_mem_of_mem_zipIdx hentry)
  | imports =>
    refine finish_joinFiles (List.foldlRecOn (motive := fun parts : Parts =>
      ImportsJoinFiles scopes parts.edges) scopes.files.zipIdx _ nofun ?_)
    exact fun parts h entry hentry => importEdges_joinFiles h (fst_mem_of_mem_zipIdx hentry)

instance : TransOrd Tier where
  eq_swap {x y} := by cases x <;> cases y <;> rfl
  isLE_trans {x y z} := by cases x <;> cases y <;> cases z <;> decide

instance : TransCmp SymbolEdge.cmpTotal :=
  inferInstanceAs (TransCmp (compareLex (compareOn fun edge => edge.source.node)
    (compareLex (compareOn fun edge => edge.target.node) (compareLex (compareOn SymbolEdge.relation)
    (compareLex (compareOn SymbolEdge.tier) (compareLex (compareOn SymbolEdge.name)
    (compareLex (compareOn fun edge => edge.source.line)
    (compareLex (compareOn fun edge => edge.target.line)
    (compareLex (compareLex (compareOn fun edge => edge.source.path)
      (compareLex (compareOn fun edge => edge.source.label)
      (compareOn fun edge => edge.source.isSymbol)))
    (compareLex (compareOn fun edge => edge.target.path)
      (compareLex (compareOn fun edge => edge.target.label)
      (compareOn fun edge => edge.target.isSymbol))))))))))))

instance : Std.Total fun x y => (SymbolEdge.cmpTotal x y).isLE = true where
  total x y := by
    rw [← OrientedCmp.isGE_iff_isLE (a := x) (b := y)]
    cases SymbolEdge.cmpTotal x y <;> decide

instance : IsTrans SymbolEdge fun x y => (SymbolEdge.cmpTotal x y).isLE = true where
  trans _ _ _ := TransCmp.isLE_trans

theorem finish_edges_sorted (parts : Parts) :
    parts.finish.edges.Pairwise fun x y => (compare x.source.node y.source.node).isLE := by
  have hsorted : parts.finish.edges.Pairwise fun x y => (SymbolEdge.cmpTotal x y).isLE = true :=
    (List.pairwise_insertionSort _ parts.edges).sublist (List.destutter_sublist _ _)
  exact hsorted.imp fun h => Ordering.isLE_left_of_isLE_then h

theorem SymbolGraph.Built.outgoing_eq {graph : SymbolGraph} (h : graph.Built scopes) (node : Text) :
    graph.outgoing node = graph.edges.filter (·.source.node = node) := by
  cases h <;> exact slice_key_eq_filter (finish_edges_sorted _) node

end Built

/-! ## Edges between files -/

/-- Some import edge leads from one file to the other. -/
def Imports (graph : SymbolGraph) (source target : Text) : Prop :=
  ∃ edge ∈ graph.importEdges, edge.source.path = source ∧ edge.target.path = target

instance (graph : SymbolGraph) (source target : Text) : Decidable (Imports graph source target) :=
  inferInstanceAs (Decidable (∃ edge ∈ graph.importEdges,
    edge.source.path = source ∧ edge.target.path = target))

theorem edge_importAdjacency (graph : SymbolGraph) :
    Edge graph.importAdjacency = Imports graph := by
  funext source target
  refine propext ?_
  let held := Collect.pushAll (fun edge : SymbolEdge => edge.source.path) (·.target.path)
    graph.importEdges
  have hraw : held[source]?.getD [] =
      (graph.importEdges.filter (·.source.path = source)).map (·.target.path) :=
    Collect.getD_pushAll _ _ _ _
  have hlookup : neighbours graph.importAdjacency source =
      (held[source]?.map (sortedDistinct compare)).getD [] :=
    congrArg (Option.getD · []) (@Collect.lookup_map_toList Text _ _ _ _ _ _
      (@instBEqOfDecidableEq Text LinearOrder.toDecidableEq) inferInstance held _ source)
  have hneighbours : target ∈ neighbours graph.importAdjacency source ↔
      target ∈ held[source]?.getD [] := by
    rw [hlookup]
    cases held[source]? with
    | none => rfl
    | some targets => exact mem_sortedDistinct
  rw [Edge, hneighbours, hraw, List.mem_map]
  constructor
  · rintro ⟨edge, hedge, rfl⟩
    obtain ⟨hmem, hsource⟩ := List.mem_filter.mp hedge
    exact ⟨edge, hmem, by simpa using hsource, rfl⟩
  · rintro ⟨edge, hmem, rfl, rfl⟩
    exact ⟨edge, List.mem_filter.mpr ⟨hmem, by simp⟩, rfl⟩

/-! ## The members of a component are in order -/

section Sorted

variable {α : Type} [LinearOrder α] {adjacency : Adjacency α} {state : Tarjan α}

def FoundSorted (state : Tarjan α) : Prop := ∀ component ∈ state.found, component.Pairwise (· ≤ ·)

theorem FoundSorted.close (h : FoundSorted state) (node : α) : FoundSorted (state.close node) := by
  unfold Tarjan.close
  split_ifs
  · exact h
  · intro component hcomponent
    obtain hcomponent | hcomponent := List.mem_append.mp hcomponent
    · exact h component hcomponent
    · rw [List.mem_singleton.mp hcomponent]
      have hsorted := @List.pairwise_mergeSort α (fun x y => decide (x ≤ y))
        (fun x y z hxy hyz => by simp only [decide_eq_true_eq] at *; exact hxy.trans hyz)
        (fun x y => by simpa using LinearOrder.le_total x y) (Tarjan.popTo node state.stack).1
      exact hsorted.imp of_decide_eq_true

theorem FoundSorted.walkStep (h : FoundSorted state) (node : α) (position : Nat)
    (work : List (α × Nat)) :
    FoundSorted (Tarjan.walkStep adjacency state node position work).1 := by
  have hopened : FoundSorted (if position = 0 then state.opened node else state) := by
    split_ifs <;> exact h
  unfold Tarjan.walkStep
  dsimp only
  generalize (if position = 0 then state.opened node else state) = opened at hopened ⊢
  split
  · unfold Tarjan.advance
    split
    · exact hopened
    · dsimp only
      split_ifs <;> exact hopened
  · unfold Tarjan.lowerParent
    split <;> exact hopened.close node

theorem FoundSorted.walk (h : FoundSorted state) (work : List (α × Nat)) :
    FoundSorted (Tarjan.walk adjacency state work) := by
  fun_induction Tarjan.walk adjacency state work with
  | case1 => exact h
  | case2 state node position work _ ih => exact ih (h.walkStep node position work)

theorem components_sorted (nodes : List α) {component : List α}
    (h : component ∈ components nodes adjacency) : component.Pairwise (· ≤ ·) := by
  refine List.foldlRecOn (motive := FoundSorted) nodes (Tarjan.walkFrom adjacency)
    (fun _ hnil => by simp at hnil) ?_ component h
  intro state h start _
  unfold Tarjan.walkFrom
  split_ifs
  · exact h.walk _
  · exact h

end Sorted

/-! ## The chain of one component -/

/-- The chain leads along edges from its first file to its last one, and back to the first. -/
def ClosedChain (edge : Text → Text → Prop) (files : List Text) : Prop :=
  ∃ first, files.head? = some first ∧ List.IsChain edge (files ++ [first])

/-- Each file of the members reaches exactly the members that reach it. -/
def IsComponent (edge : Text → Text → Prop) (members : List Text) : Prop :=
  ∀ file ∈ members, ∀ other, other ∈ members ↔
    Relation.ReflTransGen edge file other ∧ Relation.ReflTransGen edge other file

/-- A shortest closed chain through the smallest file of a component. -/
structure ShortestCycle (edge : Text → Text → Prop) (cycle : Cycle) : Prop where
  component : IsComponent edge cycle.members
  inside : ∀ file ∈ cycle.files, file ∈ cycle.members
  closed : ClosedChain edge cycle.files
  first : ∃ least ∈ cycle.members, cycle.files.head? = some least ∧
    ∀ file ∈ cycle.members, least ≤ file
  nodup : cycle.files.Nodup
  shortest : ∀ other, ClosedChain edge other → other.head? = cycle.files.head? →
    cycle.files.length ≤ other.length

section Chain

variable {adjacency : Adjacency Text} {members : List Text} {start : Text}

theorem mem_edgeSteps {label child node : Text} :
    (label, child) ∈ edgeSteps adjacency node ↔ label = node ∧ Edge adjacency node child := by
  rw [edgeSteps, List.mem_map, Edge]
  constructor
  · rintro ⟨found, hfound, heq⟩
    cases heq
    exact ⟨rfl, hfound⟩
  · rintro ⟨rfl, hchild⟩
    exact ⟨child, hchild, rfl⟩

theorem links_edgeSteps {source target : Text} {labels : List Text}
    (h : Links (edgeSteps adjacency) source labels target) :
    List.IsChain (Edge adjacency) (labels ++ [target]) ∧
      (labels ++ [target]).head? = some source := by
  induction labels generalizing source with
  | nil =>
    obtain rfl := h
    exact ⟨.singleton _, rfl⟩
  | cons label labels ih =>
    obtain ⟨child, hstep, hrest⟩ := h
    obtain ⟨rfl, hedge⟩ := mem_edgeSteps.mp hstep
    obtain ⟨hchain, hhead⟩ := ih hrest
    refine ⟨List.isChain_cons.mpr ⟨fun next hnext => ?_, hchain⟩, rfl⟩
    obtain rfl : child = next := Option.some.inj (hhead.symm.trans hnext)
    exact hedge

variable (hcomponent : IsComponent (Edge adjacency) members) (hstart : start ∈ members)

include hcomponent hstart in
theorem passable_of_reach {node : Text} (hreach : Reach adjacency start node)
    (hback : Reach adjacency node start) : Passable (members.contains ·) start node :=
  .inr (List.contains_iff_mem.mpr ((hcomponent start hstart node).mpr ⟨hreach, hback⟩))

include hcomponent hstart in
/-- Whatever the smallest file reaches on a cycle is reached inside the component. -/
theorem exists_reachedIn {node : Text} (hreach : Reach adjacency start node)
    (hback : Reach adjacency node start) :
    ∃ count, ReachedIn (edgeSteps adjacency) (members.contains ·) start count node := by
  induction hreach with
  | refl => exact ⟨0, rfl⟩
  | @tail source node hreach hedge ih =>
    obtain ⟨count, hcount⟩ := ih (.head hedge hback)
    exact ⟨count + 1, passable_of_reach hcomponent hstart (hreach.tail hedge) hback, source, source,
      hcount, mem_edgeSteps.mpr ⟨rfl, hedge⟩⟩

include hstart in
theorem mem_of_reachedIn {count : Nat} {node : Text}
    (h : ReachedIn (edgeSteps adjacency) (members.contains ·) start count node) :
    node ∈ members := by
  cases count with
  | zero =>
    obtain rfl := h
    exact hstart
  | succ count =>
    obtain rfl | hmem := h.1
    · exact hstart
    · exact List.contains_iff_mem.mp hmem

theorem reach_of_chain {node : Text} {rest : List Text}
    (h : List.IsChain (Edge adjacency) (node :: (rest ++ [start]))) : Reach adjacency node start := by
  induction rest generalizing node with
  | nil => exact .single (List.isChain_pair.mp h)
  | cons next rest ih =>
    obtain ⟨hedge, hrest⟩ := List.isChain_cons_cons.mp h
    exact .head hedge (ih hrest)

include hcomponent hstart in
/-- A chain that returns to the smallest file stays inside the component. -/
theorem exists_last_of_chain {count : Nat} {node : Text} {rest : List Text}
    (h : List.IsChain (Edge adjacency) (node :: (rest ++ [start])))
    (hcount : ReachedIn (edgeSteps adjacency) (members.contains ·) start count node)
    (hreach : Reach adjacency start node) :
    ∃ last, ReachedIn (edgeSteps adjacency) (members.contains ·) start (count + rest.length) last ∧
      Edge adjacency last start := by
  induction rest generalizing node count with
  | nil => exact ⟨node, hcount, List.isChain_pair.mp h⟩
  | cons next rest ih =>
    obtain ⟨hedge, hrest⟩ := List.isChain_cons_cons.mp h
    have hnext := hreach.tail hedge
    have hpassable := passable_of_reach hcomponent hstart hnext (reach_of_chain hrest)
    rw [List.length_cons, Nat.add_comm rest.length, ← Nat.add_assoc]
    exact ih hrest ⟨hpassable, node, node, hcount, mem_edgeSteps.mpr ⟨rfl, hedge⟩⟩ hnext

theorem cycleChain_spec (hcomponent : IsComponent (Edge adjacency) members)
    (hsorted : members.Pairwise (· ≤ ·)) (hhead : members.head? = some start)
    (hcyclic : Relation.TransGen (Edge adjacency) start start) :
    ∃ files, cycleChain members adjacency = some files ∧
      ShortestCycle (Edge adjacency) ⟨files, members⟩ := by
  have hstart : start ∈ members := List.mem_of_mem_head? hhead
  have hspec := @search_spec _ _ (edgeSteps adjacency) (members.contains ·) id start start _ _
    (edgeSteps_pool adjacency) (fun _ => rfl) (fun _ _ hstep => (mem_edgeSteps.mp hstep).1)
  unfold cycleChain
  rw [hhead, Option.bind_some]
  generalize search (members.contains ·) start (edgeSteps adjacency) (targetPool adjacency)
    (edgeSteps_pool adjacency) ⟨[], [start]⟩ = found at hspec ⊢
  obtain _ | ⟨node, previous⟩ := found
  · -- the cycle through the smallest file contradicts that none was found
    obtain ⟨last, hreach, hedge⟩ := Relation.TransGen.tail'_iff.mp hcyclic
    obtain ⟨count, hcount⟩ := exists_reachedIn hcomponent hstart hreach (.single hedge)
    exact absurd (mem_edgeSteps.mpr ⟨rfl, hedge⟩) (hspec count last last hcount)
  · obtain ⟨files, hback, hshortest⟩ := hspec
    obtain ⟨hchain, hfirst⟩ := links_edgeSteps hshortest.links
    have hfiles : files.head? = some start := by
      obtain ⟨file, files, rfl⟩ := List.exists_cons_of_ne_nil hshortest.ne_nil
      simpa using hfirst
    refine ⟨files, hback, hcomponent, fun file hfile => ?_, ⟨start, hfiles, hchain⟩,
      ⟨start, hstart, hfiles, fun file hfile => ?_⟩, by simpa using hshortest.nodup, ?_⟩
    · obtain ⟨position, hposition⟩ := List.mem_iff_getElem?.mp hfile
      exact mem_of_reachedIn hstart (hshortest.distance position file hposition).1
    · obtain ⟨rest, rfl⟩ := List.head?_eq_some_iff.mp hhead
      obtain rfl | hrest := List.mem_cons.mp hfile
      · exact le_rfl
      · exact List.rel_of_pairwise_cons hsorted hrest
    · rintro other ⟨first, hother, hclosed⟩ hsame
      obtain rfl : first = start := Option.some.inj ((hother.symm.trans hsame).trans hfiles)
      obtain ⟨rest, rfl⟩ := List.head?_eq_some_iff.mp hother
      have hzero : ReachedIn (edgeSteps adjacency) (members.contains ·) first 0 first := rfl
      obtain ⟨last, hlast, hedge⟩ := exists_last_of_chain hcomponent hstart hclosed hzero .refl
      have hle := hshortest.le _ last last hlast (mem_edgeSteps.mpr ⟨rfl, hedge⟩)
      simpa using hle

end Chain

/-! ## The cycles of a graph -/

/-- The file is on a cycle of imports. -/
def Cyclic (graph : SymbolGraph) (file : Text) : Prop := Relation.TransGen (Imports graph) file file

section Cycles

variable {scopes : Scopes} {graph : SymbolGraph} {file : Text}

theorem transGen_of_mem {edge : Text → Text → Prop} {members : List Text}
    (hcomponent : IsComponent edge members) (hnodup : members.Nodup)
    (hlength : smallestCycle ≤ members.length) (hfile : file ∈ members) :
    Relation.TransGen edge file file := by
  obtain ⟨other, hother, hne⟩ : ∃ other ∈ members, other ≠ file := by
    match members, hlength with
    | first :: second :: rest, _ =>
      have hdistinct : first ≠ second := fun heq => by simp [heq] at hnodup
      by_cases heq : first = file
      · exact ⟨second, by simp, fun hsame => hdistinct (heq.trans hsame.symm)⟩
      · exact ⟨first, by simp, heq⟩
  obtain ⟨hreach, hback⟩ := (hcomponent file hfile other).mp hother
  obtain heq | hpath := Relation.reflTransGen_iff_eq_or_transGen.mp hreach
  · exact absurd heq hne
  · exact hpath.trans_left hback

theorem isComponent_of_mem {files members : List Text}
    (h : members ∈ components files graph.importAdjacency) :
    IsComponent (Imports graph) members ∧ members.Nodup ∧ members.Pairwise (· ≤ ·) ∧
      members ≠ [] := by
  obtain ⟨hnodup, -, hne, hclass⟩ := components_spec graph.importAdjacency files
  refine ⟨?_, (List.nodup_flatten.mp hnodup).1 members h, components_sorted files h, hne members h⟩
  have hcomponent := hclass members h
  unfold Reach at hcomponent
  rw [edge_importAdjacency] at hcomponent
  exact hcomponent

theorem exists_cycleChain {files members : List Text}
    (h : members ∈ components files graph.importAdjacency)
    (hlength : smallestCycle ≤ members.length) :
    ∃ chain, cycleChain members graph.importAdjacency = some chain ∧
      ShortestCycle (Imports graph) ⟨chain, members⟩ := by
  obtain ⟨hcomponent, hnodup, hsorted, hne⟩ := isComponent_of_mem h
  obtain ⟨start, rest, rfl⟩ := List.exists_cons_of_ne_nil hne
  have hcyclic := transGen_of_mem hcomponent hnodup hlength List.mem_cons_self
  rw [← edge_importAdjacency] at hcomponent hcyclic ⊢
  exact cycleChain_spec hcomponent hsorted rfl hcyclic

theorem mem_importCycles {files : List Text} {cycle : Cycle} :
    cycle ∈ importCycles files graph ↔
      cycle.members ∈ components files graph.importAdjacency ∧
        smallestCycle ≤ cycle.members.length ∧
        cycleChain cycle.members graph.importAdjacency = some cycle.files := by
  simp only [importCycles, List.mem_insertionSort, List.mem_filterMap, List.mem_filter,
    Option.map_eq_some_iff, decide_eq_true_eq]
  constructor
  · rintro ⟨members, ⟨hmem, hlength⟩, chain, hchain, rfl⟩
    exact ⟨hmem, hlength, hchain⟩
  · rintro ⟨hmem, hlength, hchain⟩
    exact ⟨cycle.members, ⟨hmem, hlength⟩, cycle.files, hchain, rfl⟩

theorem importCycles_shortestCycle {files : List Text} {cycle : Cycle}
    (h : cycle ∈ importCycles files graph) : ShortestCycle (Imports graph) cycle := by
  obtain ⟨hmem, hlength, hchain⟩ := mem_importCycles.mp h
  obtain ⟨chain, hfound, hshortest⟩ := exists_cycleChain hmem hlength
  obtain rfl := Option.some.inj (hfound.symm.trans hchain)
  exact hshortest

theorem exists_component_of_cyclic (hbuilt : graph.Built scopes) (h : Cyclic graph file) :
    file ∈ (components scopes.filePaths graph.importAdjacency).flatten ∧
      ∀ members ∈ components scopes.filePaths graph.importAdjacency, file ∈ members →
        smallestCycle ≤ members.length := by
  obtain ⟨next, himports, hback⟩ := Relation.TransGen.head'_iff.mp h
  obtain ⟨edge, hedge, rfl, rfl⟩ := himports
  obtain ⟨hmem, hrelation⟩ := List.mem_filter.mp hedge
  have hjoins := hbuilt.joinFiles edge hmem (of_decide_eq_true hrelation)
  obtain ⟨-, hreached, -⟩ := components_spec graph.importAdjacency scopes.filePaths
  refine ⟨(hreached _).mpr ⟨_, hjoins.source_mem, .refl⟩, fun members hmembers hfile => ?_⟩
  obtain ⟨hcomponent, -⟩ := isComponent_of_mem hmembers
  have hnext : edge.target.path ∈ members :=
    (hcomponent _ hfile _).mpr ⟨.single ⟨edge, hedge, rfl, rfl⟩, hback⟩
  match members, hfile, hnext with
  | [only], hfile, hnext =>
    rw [List.mem_singleton] at hfile hnext
    exact absurd (hfile.trans hnext.symm) hjoins.ne
  | _ :: _ :: _, _, _ => simp [smallestCycle]

/-- Each file on a cycle is a member of exactly one of the cycles, any other of none. -/
theorem countP_importCycles (hbuilt : graph.Built scopes) (file : Text) :
    (Cyclic graph file →
      (importCycles scopes.filePaths graph).countP (file ∈ ·.members) = 1) ∧
    (¬ Cyclic graph file →
      (importCycles scopes.filePaths graph).countP (file ∈ ·.members) = 0) := by
  refine ⟨fun h => ?_, fun h => List.countP_eq_zero.mpr fun cycle hcycle hfile => h ?_⟩
  · obtain ⟨hmem, hlength⟩ := exists_component_of_cyclic hbuilt h
    obtain ⟨hnodup, -⟩ := components_spec graph.importAdjacency scopes.filePaths
    rw [← Sequence.countP_mem_eq_one hnodup hmem, importCycles,
      (List.perm_insertionSort _ _).countP_eq, List.countP_filterMap, List.countP_filter]
    refine List.countP_congr fun members hmembers => ?_
    constructor
    · intro hboth
      by_contra hnot
      cases hchain : cycleChain members graph.importAdjacency <;> simp_all
    · intro hfile
      have hfile : file ∈ members := by simpa using hfile
      obtain ⟨chain, hchain, -⟩ := exists_cycleChain hmembers (hlength members hmembers hfile)
      simp [hchain, hfile, hlength members hmembers hfile]
  · obtain ⟨hmembers, hlength, -⟩ := mem_importCycles.mp hcycle
    obtain ⟨hcomponent, hnodup, -⟩ := isComponent_of_mem hmembers
    exact transGen_of_mem hcomponent hnodup hlength (of_decide_eq_true hfile)

end Cycles

/-! ## The chains of a graph -/

/-- Import edges that `keeps` accepts, one after another from one file to another: the source of
each is the target of the one before. -/
def ChainOf (graph : SymbolGraph) (keeps : Text → Nat → Bool) (from_ to_ : Text)
    (edges : List SymbolEdge) : Prop :=
  (∀ edge ∈ edges, edge ∈ graph.importEdges ∧ keeps edge.source.path edge.source.line = true) ∧
    edges.map (·.source.path) ++ [to_] = from_ :: edges.map (·.target.path)

section Chains

variable {scopes : Scopes} {graph : SymbolGraph} {keeps : Text → Nat → Bool} {from_ to_ : Text}

theorem mem_keptSteps (hbuilt : graph.Built scopes) {edge : SymbolEdge} {child node : Text} :
    (edge, child) ∈ keptSteps graph keeps node ↔
      edge ∈ graph.importEdges ∧ keeps edge.source.path edge.source.line = true ∧
        edge.source.path = node ∧ edge.target.path = child := by
  simp only [keptSteps, hbuilt.outgoing_eq, SymbolGraph.importEdges, List.mem_map, List.mem_filter,
    Bool.and_eq_true, decide_eq_true_eq]
  constructor
  · rintro ⟨edge', ⟨⟨hmem, hnode⟩, hrelation, hkeeps⟩, heq⟩
    cases heq
    exact ⟨⟨hmem, hrelation⟩, hkeeps, (hbuilt.joinFiles edge hmem hrelation).node_eq ▸ hnode, rfl⟩
  · rintro ⟨⟨hmem, hrelation⟩, hkeeps, rfl, rfl⟩
    exact ⟨edge, ⟨⟨hmem, (hbuilt.joinFiles edge hmem hrelation).node_eq⟩, hrelation, hkeeps⟩, rfl⟩

theorem links_keptSteps_iff (hbuilt : graph.Built scopes) {edges : List SymbolEdge} :
    Links (keptSteps graph keeps) from_ edges to_ ↔ ChainOf graph keeps from_ to_ edges := by
  induction edges generalizing from_ with
  | nil =>
    have hlinks : Links (keptSteps graph keeps) from_ [] to_ ↔ to_ = from_ := eq_comm
    rw [hlinks]
    simp [ChainOf]
  | cons edge edges ih =>
    simp only [Links, ih, mem_keptSteps hbuilt, ChainOf, List.forall_mem_cons, List.map_cons,
      List.cons_append, List.cons.injEq]
    constructor
    · rintro ⟨child, ⟨hmem, hkeeps, rfl, rfl⟩, hall, hlinked⟩
      exact ⟨⟨⟨hmem, hkeeps⟩, hall⟩, rfl, hlinked⟩
    · rintro ⟨⟨⟨hmem, hkeeps⟩, hall⟩, rfl, hlinked⟩
      exact ⟨edge.target.path, ⟨hmem, hkeeps, rfl, rfl⟩, hall, hlinked⟩

theorem ChainOf.exists_last (hbuilt : graph.Built scopes) {edges : List SymbolEdge}
    (h : ChainOf graph keeps from_ to_ edges) (hne : edges ≠ []) :
    ∃ count node edge, ReachedIn (keptSteps graph keeps) (· ≠ from_) from_ count node ∧
      (edge, to_) ∈ keptSteps graph keeps node ∧ edges.length = count + 1 := by
  obtain ⟨earlier, last, rfl⟩ := (List.eq_nil_or_concat' edges).resolve_left hne
  obtain ⟨node, hearlier, hlast⟩ := links_concat_iff.mp ((links_keptSteps_iff hbuilt).mpr h)
  have hpassable (node : Text) : Passable (· ≠ from_) from_ node := by
    by_cases heq : node = from_
    · exact .inl heq
    · exact .inr (by simp [heq])
  have hzero : ReachedIn (keptSteps graph keeps) (· ≠ from_) from_ 0 from_ := rfl
  exact ⟨0 + earlier.length, node, last, hearlier.reachedIn hzero hpassable, hlast, by simp⟩

/-- A chain that is found is a shortest one of those with an edge, and one is found when there is
any. -/
theorem importChain_spec (hbuilt : graph.Built scopes) :
    match importChain graph from_ to_ keeps with
    | some chain => chain ≠ [] ∧ ChainOf graph keeps from_ to_ chain ∧
        ∀ other, other ≠ [] → ChainOf graph keeps from_ to_ other → chain.length ≤ other.length
    | none => ∀ other, ChainOf graph keeps from_ to_ other → other = [] := by
  have hspec := @search_spec _ _ (keptSteps graph keeps) (· ≠ from_) (·.source.path) from_ to_ _ _
    (keptSteps_pool graph keeps) (by simp)
    (fun _ _ hstep => ((mem_keptSteps hbuilt).mp hstep).2.2.1)
  unfold importChain
  generalize search (· ≠ from_) to_ (keptSteps graph keeps) graph.targetPool
    (keptSteps_pool graph keeps) ⟨[], [from_]⟩ = found at hspec ⊢
  obtain _ | ⟨edge, previous⟩ := found
  · intro other hother
    by_contra hne
    obtain ⟨count, node, last, hnode, hlast, -⟩ := hother.exists_last hbuilt hne
    exact hspec count node last hnode hlast
  · obtain ⟨chain, hback, hshortest⟩ := hspec
    have hfound : edgesBack edge from_ previous = some chain := hback
    simp only [Option.bind_some, hfound]
    refine ⟨hshortest.ne_nil, (links_keptSteps_iff hbuilt).mp hshortest.links, ?_⟩
    intro other hne hother
    obtain ⟨count, node, last, hnode, hlast, hlength⟩ := hother.exists_last hbuilt hne
    rw [hlength]
    exact hshortest.le count node last hnode hlast

end Chains

/-- The cycles and chains of every scan. Each cycle is a shortest one through the smallest file of
its component; each component with a cycle has exactly one; each chain is a shortest one, and there
is none exactly when no edges lead from the one file to the other. -/
theorem importCycles_exact {scopes : Scopes} {graph : SymbolGraph} (h : graph.Built scopes) :
    (∀ cycle ∈ importCycles scopes.filePaths graph, ShortestCycle (Imports graph) cycle) ∧
    (∀ file,
      (Cyclic graph file →
        (importCycles scopes.filePaths graph).countP (file ∈ ·.members) = 1) ∧
      (¬ Cyclic graph file →
        (importCycles scopes.filePaths graph).countP (file ∈ ·.members) = 0)) ∧
    ∀ from_ to_ keeps,
      (∀ chain, importChain graph from_ to_ keeps = some chain →
        chain ≠ [] ∧ ChainOf graph keeps from_ to_ chain ∧
          ∀ other, other ≠ [] → ChainOf graph keeps from_ to_ other →
            chain.length ≤ other.length) ∧
      (importChain graph from_ to_ keeps = none ↔
        ¬ ∃ chain, chain ≠ [] ∧ ChainOf graph keeps from_ to_ chain) := by
  refine ⟨fun _ => importCycles_shortestCycle, countP_importCycles h, fun from_ to_ keeps => ?_⟩
  have hspec := @importChain_spec scopes graph keeps from_ to_ h
  cases hchain : importChain graph from_ to_ keeps with
  | none =>
    rw [hchain] at hspec
    exact ⟨nofun, fun _ ⟨chain, hne, hof⟩ => hne (hspec chain hof), fun _ => rfl⟩
  | some found =>
    rw [hchain] at hspec
    refine ⟨fun chain heq => Option.some.inj heq ▸ hspec, nofun, fun hnone => ?_⟩
    exact absurd ⟨found, hspec.1, hspec.2.1⟩ hnone

/-- Three files that import each other in a ring, and one that imports the first of them. -/
def ring : Scopes where
  files := ["a", "b", "c", "d"].map fun path => ⟨path.toList, .python, [], []⟩
  perFile position := { statements := [⟨"m".toList, 1, (["b", "c", "a", "a"][position]?).map
    String.toList⟩] }

theorem importCycles_exact_ring :
    Cyclic (SymbolGraph.imports ring) "a".toList ∧
      (importCycles ring.filePaths (SymbolGraph.imports ring)).countP ("a".toList ∈ ·.members) = 1 := by
  have hab : Imports (SymbolGraph.imports ring) "a".toList "b".toList := by decide
  have hbc : Imports (SymbolGraph.imports ring) "b".toList "c".toList := by decide
  have hca : Imports (SymbolGraph.imports ring) "c".toList "a".toList := by decide
  have hcyclic : Cyclic (SymbolGraph.imports ring) "a".toList := ((Relation.TransGen.single hab).tail hbc).tail hca
  exact ⟨hcyclic, ((importCycles_exact .imports).2.1 "a".toList).1 hcyclic⟩

end Agentless.Graph
