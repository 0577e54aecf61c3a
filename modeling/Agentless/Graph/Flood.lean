import Agentless.Library.Collect
import Agentless.Library.Levels
import Agentless.Library.Text

/-!
# The file graph

One weighted edge for each pair of a referring and a defining file. The nodes are the scanned paths
in order, every edge runs between two of them, and no pair of files has two edges.
-/

namespace Agentless.Graph

/-- The edge from a referring file to the file that it refers to. -/
structure FileEdge (φ : Type) where
  source : Text
  target : Text
  weight : φ
deriving DecidableEq, Repr

def FileEdge.pair {φ : Type} (edge : FileEdge φ) : Text × Text := (edge.source, edge.target)

/-- A weighted directed graph over the scanned files, its edges in insertion order. -/
structure FileGraph (φ : Type) where
  nodes : List Text
  edges : List (FileEdge φ)
  sorted : nodes.Pairwise (· < ·)
  ends_mem : ∀ edge ∈ edges, edge.source ∈ nodes ∧ edge.target ∈ nodes
  distinct : (edges.map FileEdge.pair).Nodup

namespace FileGraph

variable {φ : Type} (graph : FileGraph φ)

def position (path : Text) : Option Nat := graph.nodes.idxOf? path

/-- A second weight of one pair is added to the first. -/
def merge [Add φ] (source target : Text) (weight : φ) (edge : FileEdge φ) : FileEdge φ :=
  if edge.pair = (source, target) then { edge with weight := edge.weight + weight } else edge

variable [Zero φ] [Add φ]

/-- The edges after a weight was added to one pair, which starts from zero. -/
def addEdge (edges : List (FileEdge φ)) (source target : Text) (weight : φ) : List (FileEdge φ) :=
  if (source, target) ∈ edges.map FileEdge.pair then edges.map (merge source target weight)
  else edges ++ [⟨source, target, 0 + weight⟩]

omit [Zero φ] in
@[simp] theorem pair_merge (source target : Text) (weight : φ) (edge : FileEdge φ) :
    (merge source target weight edge).pair = edge.pair := by
  unfold merge
  split_ifs <;> rfl

theorem mem_pair_addEdge {edges : List (FileEdge φ)} {source target : Text} {weight : φ}
    {pair : Text × Text} :
    pair ∈ (addEdge edges source target weight).map FileEdge.pair ↔
      pair ∈ edges.map FileEdge.pair ∨ pair = (source, target) := by
  unfold addEdge
  split_ifs with h
  · have hpair : FileEdge.pair ∘ merge source target weight = FileEdge.pair :=
      funext (pair_merge source target weight)
    rw [List.map_map, hpair]
    grind
  · simp [FileEdge.pair]

theorem nodup_addEdge {edges : List (FileEdge φ)} (h : (edges.map FileEdge.pair).Nodup)
    (source target : Text) (weight : φ) :
    ((addEdge edges source target weight).map FileEdge.pair).Nodup := by
  unfold addEdge
  split_ifs with hmem
  · have hpair : FileEdge.pair ∘ merge source target weight = FileEdge.pair :=
      funext (pair_merge source target weight)
    rwa [List.map_map, hpair]
  · rw [List.map_append, List.map_singleton]
    exact List.nodup_append.mpr ⟨h, List.nodup_singleton _, by grind [FileEdge.pair]⟩

/-- Adding a weight keeps what every file graph promises. -/
def add (source target : Text) (weight : φ) (hsource : source ∈ graph.nodes)
    (htarget : target ∈ graph.nodes) : FileGraph φ where
  nodes := graph.nodes
  edges := addEdge graph.edges source target weight
  sorted := graph.sorted
  ends_mem := by
    intro edge hedge
    rcases mem_pair_addEdge.mp (List.mem_map_of_mem hedge) with hold | hnew
    · obtain ⟨old, hmem, heq⟩ := List.mem_map.mp hold
      obtain ⟨hsame, hsame'⟩ := Prod.mk.inj heq
      exact hsame ▸ hsame' ▸ graph.ends_mem old hmem
    · obtain ⟨hsame, hsame'⟩ := Prod.mk.inj hnew
      rw [hsame, hsame']
      exact ⟨hsource, htarget⟩
  distinct := nodup_addEdge graph.distinct source target weight

end FileGraph

end Agentless.Graph

/-!
## What reaches a set of files

A breadth-first walk against the edges of the file graph, level by level, which gives up once it
has expanded too many nodes. What it reports when it does not give up are the nodes at each
distance from the seeds.
-/

namespace Agentless.Graph

open Std (TreeMap TreeSet)

/-- The nodes a flood expands before it stops answering the question it was asked. -/
def maxFloodVisited : Nat := 20000

/-- One file a flood arrived at, and the fewest hops that arrive there. -/
structure Reached where
  path : Text
  depth : Nat
deriving DecidableEq, Repr

structure Flood where
  reached : List Reached
  exhausted : Bool
deriving DecidableEq, Repr

variable {φ : Type} (graph : FileGraph φ)

/-- Each file's referrers, in path order. -/
def incoming : TreeMap Text (List Text) compare :=
  (Collect.pushAll (·.target) (·.source) graph.edges).map fun _ sources =>
    sources.insertionSort (· ≤ ·)

structure Walk where
  seen : TreeSet Text compare
  depths : TreeMap Text Nat compare
  visited : Nat

/-- The nodes that the set did not hold yet, in order, and the set with all of them. -/
def insertFresh (seen : TreeSet Text compare) : List Text → List Text × TreeSet Text compare
  | [] => ([], seen)
  | other :: others =>
    let (fresh, seen') := insertFresh (seen.insert other) others
    (if seen.contains other then fresh else other :: fresh, seen')

/-- Expand one level: the next frontier, in discovery order, and whether the visit bound stopped
the level. -/
def Walk.level (referrers : TreeMap Text (List Text) compare) (depth : Nat) :
    List Text → Walk → (List Text × Bool) × Walk
  | [], walk => (([], false), walk)
  | node :: frontier, walk =>
    if walk.visited + 1 > maxFloodVisited then
      (([], true), { walk with visited := walk.visited + 1 })
    else
      let (fresh, seen) := insertFresh walk.seen (referrers[node]?.getD [])
      let depths := fresh.foldl (fun depths other => depths.insert other depth) walk.depths
      let ((following, exhausted), walk) :=
        level referrers depth frontier ⟨seen, depths, walk.visited + 1⟩
      ((fresh ++ following, exhausted), walk)

/-- Level after level, with the levels that the depth bound still allows. -/
def Walk.levels (referrers : TreeMap Text (List Text) compare) :
    Nat → Nat → List Text → Walk → Walk × Bool
  | 0, _, _, walk => (walk, false)
  | remaining + 1, depth, frontier, walk =>
    if frontier.isEmpty then (walk, false)
    else
      match walk.level referrers (depth + 1) frontier with
      | ((_, true), walk) => (walk, true)
      | ((following, false), walk) => levels referrers remaining (depth + 1) following walk

def seedSet (seeds : List Text) : TreeSet Text compare :=
  TreeSet.ofList (seeds.filterMap fun seed => (graph.position seed).bind (graph.nodes[·]?)) compare

def Reached.before (row other : Reached) : Prop :=
  toLex (row.depth, row.path) ≤ toLex (other.depth, other.path)

instance : DecidableRel Reached.before := fun row other =>
  inferInstanceAs (Decidable (toLex (row.depth, row.path) ≤ toLex (other.depth, other.path)))

/-- Walk from `seeds` against the edges, at most `maxDepth` hops: every file that reaches a seed,
ordered by depth, then path. The seeds themselves are never reported. -/
def floodBackward (seeds : List Text) (maxDepth : Nat) : Flood :=
  let frontier := seedSet graph seeds
  if frontier.isEmpty then ⟨[], false⟩
  else
    let (walk, exhausted) := Walk.levels (incoming graph) maxDepth 0 frontier.toList
      ⟨frontier, {}, 0⟩
    let reached := walk.depths.toList.map fun entry => ⟨entry.1, entry.2⟩
    ⟨reached.insertionSort Reached.before, exhausted⟩

/-! ## One level -/

/-- One step of the flood: an edge leads to `node` from `other`. -/
def FileGraph.Refers (node other : Text) : Prop :=
  ∃ edge ∈ graph.edges, edge.target = node ∧ edge.source = other

theorem mem_incoming {node other : Text} :
    other ∈ (incoming graph)[node]?.getD [] ↔ graph.Refers node other := by
  have hheld : other ∈ (incoming graph)[node]?.getD [] ↔
      other ∈ (Collect.pushAll (·.target) (·.source) graph.edges)[node]?.getD [] := by
    unfold incoming
    rw [TreeMap.getElem?_map]
    cases (Collect.pushAll (·.target) (·.source) graph.edges)[node]? with
    | none => simp
    | some sources => simp
  rw [hheld, Collect.getD_pushAll]
  simp only [List.mem_map, List.mem_filter, decide_eq_true_eq, FileGraph.Refers, and_assoc]

theorem mem_insertFresh {seen : TreeSet Text compare} {others : List Text} {other : Text} :
    (other ∈ (insertFresh seen others).1 ↔ other ∈ others ∧ other ∉ seen) ∧
      (other ∈ (insertFresh seen others).2 ↔ other ∈ others ∨ other ∈ seen) := by
  fun_induction insertFresh seen others with
  | case1 => simp
  | case2 seen first others fresh seen' hfresh ih =>
    rw [hfresh, TreeSet.mem_insert, Std.compare_eq_iff_eq] at ih
    grind

theorem getElem?_foldl_insert (fresh : List Text) (depths : TreeMap Text Nat compare) (depth : Nat)
    (path : Text) :
    (fresh.foldl (fun depths other => depths.insert other depth) depths)[path]? =
      if path ∈ fresh then some depth else depths[path]? := by
  induction fresh generalizing depths with
  | nil => simp
  | cons other fresh ih =>
    rw [List.foldl_cons, ih, TreeMap.getElem?_insert]
    simp only [Std.compare_eq_iff_eq]
    grind

/-- What a level that the visit bound does not stop finds and keeps. -/
structure Expanded (depth : Nat) (frontier : List Text) (walk : Walk) (following : List Text)
    (next : Walk) : Prop where
  found : ∀ other, other ∈ following ↔
    (∃ node ∈ frontier, graph.Refers node other) ∧ other ∉ walk.seen
  seen : ∀ other, other ∈ next.seen ↔ other ∈ walk.seen ∨ other ∈ following
  depths : ∀ other, next.depths[other]? =
    if other ∈ following then some depth else walk.depths[other]?

theorem expanded_level {depth : Nat} {frontier : List Text} {walk : Walk}
    (h : (walk.level (incoming graph) depth frontier).1.2 = false) :
    Expanded graph depth frontier walk (walk.level (incoming graph) depth frontier).1.1
      (walk.level (incoming graph) depth frontier).2 := by
  induction frontier generalizing walk with
  | nil => constructor <;> simp [Walk.level]
  | cons node frontier ih =>
    unfold Walk.level at h ⊢
    split_ifs at h ⊢ with hvisited
    have hfresh := @mem_insertFresh walk.seen ((incoming graph)[node]?.getD [])
    generalize insertFresh walk.seen ((incoming graph)[node]?.getD []) = found at h hfresh ⊢
    obtain ⟨fresh, seen⟩ := found
    dsimp only at h hfresh ⊢
    have hrest := ih h
    simp only [mem_incoming] at hfresh
    have hdepths := getElem?_foldl_insert fresh walk.depths depth
    constructor
    · intro other
      rw [List.mem_append, hrest.found]
      grind
    · intro other
      rw [hrest.seen]
      grind
    · intro other
      rw [hrest.depths, hdepths]
      grind

/-! ## Every level -/

/-- A seed that is a node. -/
def FileGraph.Start (seeds : List Text) (path : Text) : Prop := path ∈ seeds ∧ path ∈ graph.nodes

/-- The walk after the levels up to `depth`. -/
structure Flooded (seeds : List Text) (depth : Nat) (frontier : List Text) (walk : Walk) :
    Prop where
  frontier : ∀ path, path ∈ frontier ↔ Levels.Distance (graph.Start seeds) graph.Refers depth path
  seen : ∀ path, path ∈ walk.seen ↔
    Levels.Before (graph.Start seeds) graph.Refers (depth + 1) path
  depths : ∀ path found, walk.depths[path]? = some found ↔
    found ≠ 0 ∧ found ≤ depth ∧ Levels.Distance (graph.Start seeds) graph.Refers found path

variable {graph} {seeds : List Text} {depth : Nat} {frontier : List Text} {walk : Walk}

theorem Flooded.next {following : List Text} {next : Walk}
    (h : Flooded graph seeds depth frontier walk)
    (hnext : Expanded graph (depth + 1) frontier walk following next) :
    Flooded graph seeds (depth + 1) following next := by
  have hfound (path : Text) : path ∈ following ↔
      Levels.Distance (graph.Start seeds) graph.Refers (depth + 1) path := by
    rw [hnext.found, Levels.distance_succ_iff, h.seen]
    simp only [h.frontier]
  constructor
  · exact hfound
  · intro path
    rw [hnext.seen, h.seen, hfound, ← Levels.before_succ_iff]
  · intro path found
    rw [hnext.depths]
    split_ifs with hmem
    · have hdistance := (hfound path).mp hmem
      rw [Option.some.injEq]
      constructor
      · rintro rfl
        exact ⟨Nat.succ_ne_zero depth, le_refl _, hdistance⟩
      · rintro ⟨-, -, hother⟩
        exact hdistance.unique hother
    · rw [h.depths]
      have hne (hother : Levels.Distance (graph.Start seeds) graph.Refers found path) :
          found ≠ depth + 1 := by
        rintro rfl
        exact hmem ((hfound path).mpr hother)
      constructor
      · rintro ⟨hzero, hle, hother⟩
        exact ⟨hzero, Nat.le_succ_of_le hle, hother⟩
      · rintro ⟨hzero, hle, hother⟩
        exact ⟨hzero, by have := hne hother; omega, hother⟩

theorem Flooded.levels {remaining : Nat} (h : Flooded graph seeds depth frontier walk)
    (hdone : (walk.levels (incoming graph) remaining depth frontier).2 = false) (path : Text)
    (found : Nat) :
    (walk.levels (incoming graph) remaining depth frontier).1.depths[path]? = some found ↔
      found ≠ 0 ∧ found ≤ depth + remaining ∧
        Levels.Distance (graph.Start seeds) graph.Refers found path := by
  induction remaining generalizing depth frontier walk with
  | zero => exact h.depths path found
  | succ remaining ih =>
    unfold Walk.levels at hdone ⊢
    split_ifs at hdone ⊢ with hempty
    · rw [h.depths]
      refine and_congr_right fun _ => ⟨fun ⟨hle, hat⟩ => ⟨by omega, hat⟩, fun ⟨_, hat⟩ => ⟨?_, hat⟩⟩
      by_contra hgt
      -- a node beyond the last level has one before it on that level
      obtain ⟨node, hnode⟩ := hat.exists_of_le (Nat.le_of_not_le hgt)
      rw [← h.frontier, List.isEmpty_iff.mp hempty] at hnode
      cases hnode
    · have hnext := @expanded_level _ graph (depth + 1) frontier walk
      generalize walk.level (incoming graph) (depth + 1) frontier = expanded at hdone hnext ⊢
      obtain ⟨⟨following, exhausted⟩, next⟩ := expanded
      cases exhausted with
      | true => cases hdone
      | false =>
        rw [ih (h.next (hnext rfl)) hdone, Nat.add_right_comm, Nat.add_assoc]

theorem mem_seedSet {path : Text} : path ∈ seedSet graph seeds ↔ graph.Start seeds path := by
  have hposition (seed : Text) :
      (graph.position seed).bind (graph.nodes[·]?) =
        if seed ∈ graph.nodes then some seed else none := by
    unfold FileGraph.position
    cases hfound : graph.nodes.idxOf? seed with
    | none => rw [if_neg (List.idxOf?_eq_none_iff.mp hfound), Option.bind_none]
    | some found =>
      obtain ⟨hlt, heq, -⟩ := List.idxOf?_eq_some_iff.mp hfound
      rw [Option.bind_some, List.getElem?_eq_getElem hlt, heq, if_pos (heq ▸ List.getElem_mem hlt)]
  rw [seedSet, TreeSet.mem_ofList, List.contains_iff_mem, List.mem_filterMap]
  simp only [hposition, FileGraph.Start]
  grind

theorem flooded_start (graph : FileGraph φ) (seeds : List Text) :
    Flooded graph seeds 0 (seedSet graph seeds).toList ⟨seedSet graph seeds, {}, 0⟩ := by
  constructor
  · intro path
    rw [TreeSet.mem_toList, mem_seedSet, Levels.distance_zero_iff]
  · intro path
    rw [mem_seedSet, Levels.before_succ_iff, Levels.distance_zero_iff]
    refine (or_iff_right ?_).symm
    rintro ⟨fewer, hfewer, -⟩
    exact absurd hfewer (Nat.not_lt_zero fewer)
  · intro path found
    simp only [TreeMap.getElem?_emptyc, reduceCtorEq, false_iff]
    omega

/-! ## The flood -/

theorem mem_floodBackward {maxDepth : Nat}
    (hdone : (floodBackward graph seeds maxDepth).exhausted = false) (row : Reached) :
    row ∈ (floodBackward graph seeds maxDepth).reached ↔
      row.depth ≠ 0 ∧ row.depth ≤ maxDepth ∧
        Levels.Distance (graph.Start seeds) graph.Refers row.depth row.path := by
  unfold floodBackward at hdone ⊢
  dsimp only at hdone ⊢
  split_ifs at hdone ⊢ with hempty
  · refine iff_of_false List.not_mem_nil ?_
    rintro ⟨-, -, hat⟩
    obtain ⟨start, hstart⟩ := hat.exists_of_le (Nat.zero_le _)
    rw [Levels.distance_zero_iff, ← mem_seedSet] at hstart
    exact TreeSet.isEmpty_iff_forall_not_mem.mp hempty start hstart
  · have hlevels := (flooded_start graph seeds).levels hdone row.path row.depth
    rw [Nat.zero_add] at hlevels
    rw [List.mem_insertionSort, List.mem_map, ← hlevels]
    constructor
    · rintro ⟨⟨path, depth⟩, hentry, rfl⟩
      exact TreeMap.mem_toList_iff_getElem?_eq_some.mp hentry
    · intro hfound
      exact ⟨(row.path, row.depth), TreeMap.mem_toList_iff_getElem?_eq_some.mpr hfound, rfl⟩

instance : Std.Total Reached.before := ⟨fun _ _ => le_total (toLex _) (toLex _)⟩

instance : IsTrans Reached Reached.before := ⟨fun _ _ _ => le_trans⟩

/-- The flood reports a file once, with the files ordered by depth and then by path. -/
theorem pairwise_floodBackward (graph : FileGraph φ) (seeds : List Text) (maxDepth : Nat) :
    (floodBackward graph seeds maxDepth).reached.Pairwise fun row other =>
      row.path ≠ other.path ∧ row.before other := by
  unfold floodBackward
  dsimp only
  split_ifs
  · exact .nil
  · refine .and ?_ (List.pairwise_insertionSort Reached.before _)
    rw [← List.pairwise_map]
    refine (List.Perm.nodup_iff ((List.perm_insertionSort Reached.before _).map _)).mpr ?_
    rw [List.map_map]
    exact Collect.nodup_map_fst_toList _

/-- A flood that the visit bound does not stop reports the files, other than the seeds, from which
a path of at most `maxDepth` edges leads to a seed, each with the length of a shortest such
path. -/
theorem floodBackward_distances (graph : FileGraph φ) (seeds : List Text) (maxDepth : Nat)
    (hdone : (floodBackward graph seeds maxDepth).exhausted = false) :
    (∀ path, path ∈ (floodBackward graph seeds maxDepth).reached.map Reached.path ↔
      ¬ graph.Start seeds path ∧
        ∃ count ≤ maxDepth, Levels.Walk (graph.Start seeds) graph.Refers count path) ∧
      (∀ row ∈ (floodBackward graph seeds maxDepth).reached,
        Levels.Distance (graph.Start seeds) graph.Refers row.depth row.path) ∧
      (floodBackward graph seeds maxDepth).reached.Pairwise fun row other =>
        row.path ≠ other.path ∧ row.before other := by
  refine ⟨fun path => ?_, fun row hrow => ((mem_floodBackward hdone row).mp hrow).2.2,
    pairwise_floodBackward graph seeds maxDepth⟩
  rw [List.mem_map]
  constructor
  · rintro ⟨row, hrow, rfl⟩
    obtain ⟨hzero, hle, hat⟩ := (mem_floodBackward hdone row).mp hrow
    refine ⟨fun hstart => hzero ?_, row.depth, hle, hat.1⟩
    exact hat.unique (Levels.distance_zero_iff.mpr hstart)
  · rintro ⟨hstart, count, hcount, hwalk⟩
    obtain ⟨depth, hdepth, hat⟩ := hwalk.distance
    refine ⟨⟨path, depth⟩, (mem_floodBackward hdone _).mpr ⟨?_, hdepth.trans hcount, hat⟩, rfl⟩
    rintro rfl
    exact hstart (Levels.distance_zero_iff.mp hat)

/-- One file that refers to another. -/
def referringPair : FileGraph Unit where
  nodes := [['a'], ['b']]
  edges := [⟨['a'], ['b'], ()⟩]
  sorted := by decide
  ends_mem := by decide
  distinct := by decide

theorem floodBackward_distances_pair :
    (floodBackward referringPair [['b']] 1).reached = [⟨['a'], 1⟩] ∧
      Levels.Distance (referringPair.Start [['b']]) referringPair.Refers 1 ['a'] := by
  have hreached : (floodBackward referringPair [['b']] 1).reached = [⟨['a'], 1⟩] := by
    decide
  have hdistances := floodBackward_distances referringPair [['b']] 1 (by decide)
  exact ⟨hreached, hdistances.2.1 ⟨['a'], 1⟩ (hreached ▸ List.mem_singleton_self _)⟩

/-- A seed reaches itself over no edge, and is not reported. -/
theorem floodBackward_seed :
    (floodBackward referringPair [['b']] 1).exhausted = false ∧
      Levels.Walk (referringPair.Start [['b']]) referringPair.Refers 0 ['b'] ∧
      ['b'] ∉ (floodBackward referringPair [['b']] 1).reached.map Reached.path := by
  refine ⟨by decide, .start ⟨?_, ?_⟩, by decide⟩
  · exact List.mem_singleton_self _
  · exact List.mem_cons_of_mem _ (List.mem_singleton_self _)

end Agentless.Graph
