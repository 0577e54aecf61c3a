import Agentless.Graph.Rank
import Agentless.Library.Collect

/-!
# Communities of the file graph

Modularity local moving over the symmetrised graph, in exact arithmetic, each community labelled by
its one file, or by the directory a strict majority of its members share and its hub file.
-/

namespace Agentless.Graph

open Std (TreeMap)
open Metrics

def rootLabel : Text := "repository root".toList

/-- The bound exists so that a pathological graph cannot spin, not as a tuning knob. -/
def maxPasses : Nat := 50

/-- Gains are differences of float sums, so "strictly better" needs a floor above their noise. -/
def gainFloor : ℚ := 1 / 1000000000000

/-- One community: its label, its members in path order, and its weights on the symmetrised graph
(edges inside it, and its members' summed degree). -/
structure Community where
  label : Text
  members : List Text
  internalWeight : ℚ
  totalWeight : ℚ
deriving DecidableEq

/-- A whole partition, largest community first, with its scaled and standard modularity. -/
structure CommunityPartition where
  communities : List Community
  modularity : ℚ
  standardModularity : ℚ
  resolution : ℚ
  converged : Bool
deriving DecidableEq

/-- The undirected view: per node, its neighbours in first-met order with summed weights. -/
structure Weighted where
  adjacency : List Cells
  degree : List ℚ
  twoM : ℚ

/-! ## The undirected view -/

/-- A pair's weight starts from zero. -/
def Cells.add (cells : Cells) (other : Nat) (weight : ℚ) : Cells :=
  match cells.findIdx? (·.1 == other) with
  | some held => cells.modify held fun cell => (cell.1, cell.2 + weight)
  | none => cells ++ [(other, 0 + weight)]

/-- An edge counts for both of its ends; an edge from a file to itself counts twice there. -/
def symmetriseEdge (graph : FileGraph ℚ≥0) (rows : List Cells) (edge : FileEdge ℚ≥0) : List Cells :=
  let source := graph.nodes.idxOf edge.source
  let target := graph.nodes.idxOf edge.target
  (rows.modify source fun cells => Cells.add cells target edge.weight).modify target
    fun cells => Cells.add cells source edge.weight

def symmetrise (graph : FileGraph ℚ≥0) : Weighted :=
  let adjacency := graph.edges.foldl (symmetriseEdge graph) (List.replicate graph.nodes.length [])
  let degree := adjacency.map fun cells => compensatedSum (weights cells)
  ⟨adjacency, degree, compensatedSum degree⟩

/-! ## Local moving -/

section Moving

variable (weighted : Weighted) (resolution : ℚ)

/-- The weight from `node` into each neighbouring community, its own community always present. -/
def neighbourWeights (membership : List Nat) (node origin : Nat) : TreeMap Nat ℚ compare :=
  (weighted.adjacency[node]?.getD []).foldl (fun into cell =>
    Collect.accumulate into (membership[cell.1]?.getD 0) cell.2)
    (({} : TreeMap Nat ℚ compare).insert origin 0)

/-- How well a community suits a node of the degree that has left its own. -/
def score (total : List ℚ) (nodeDegree : ℚ) (entry : Nat × ℚ) : ℚ :=
  entry.2 - resolution * nodeDegree * (total[entry.1]?.getD 0) / weighted.twoM

def better (score : Nat × ℚ → ℚ) (best entry : Nat × ℚ) : Nat × ℚ :=
  if score entry > best.2 + gainFloor then (entry.1, score entry) else best

/-- The stored total and the members of the communities, and how many nodes were moved. -/
structure Moving where
  total : List ℚ
  membership : List Nat
  moved : Nat

/-- Move a node to its best community. The node leaves its own community before any candidate is
scored, so that community competes on the same terms. -/
def moveNode (state : Moving) (node : Nat) : Moving :=
  let origin := state.membership[node]?.getD 0
  let nodeDegree := weighted.degree[node]?.getD 0
  let total := state.total.modify origin (· - nodeDegree)
  let into := neighbourWeights weighted state.membership node origin
  let score := score weighted resolution total nodeDegree
  let best := into.toList.foldl (better score) (origin, score (origin, into[origin]?.getD 0))
  { total := total.modify best.1 (· + nodeDegree)
    membership := state.membership.set node best.1
    moved := state.moved + if best.1 = origin then 0 else 1 }

/-- Move each node to its best community once. -/
def onePass (total : List ℚ) (membership : List Nat) : Moving :=
  (List.range membership.length).foldl (moveNode weighted resolution) ⟨total, membership, 0⟩

/-- Passes until one moves no node, and whether one did not. -/
def passes : Nat → List ℚ → List Nat → List Nat × Bool
  | 0, _, membership => (membership, false)
  | remaining + 1, total, membership =>
    let next := onePass weighted resolution total membership
    if next.moved = 0 then (next.membership, true)
    else passes remaining next.total next.membership

end Moving

/-! ## The partition -/

section Partition

variable (weighted : Weighted) (membership : List Nat)

def internalWeights (members : List Nat) (community : Nat) : List ℚ :=
  ((members.flatMap fun member => weighted.adjacency[member]?.getD []).filter fun cell =>
    membership[cell.1]?.getD 0 = community).map Prod.snd

/-- The member with the most edge weight inside the community; on a tie, the first in path
order. -/
def hubPosition (members : List Nat) (community : Nat) : Nat :=
  let inside := fun member => compensatedSum (internalWeights weighted membership [member] community)
  ((members.zipIdx.drop 1).foldl (fun best (entry : Nat × Nat) =>
    if inside entry.1 > best.2 then (entry.2, inside entry.1) else best)
    (0, inside (members.head?.getD 0))).1

/-- The order of the directories: the deepest first, then by text. -/
def byDepth (directory : Text) : Lex (ℕᵒᵈ × Text) :=
  toLex (OrderDual.toDual (directory.count '/'), directory)

/-- Every directory above the member. -/
def directoriesOf (member : Text) : List Text :=
  let parts := member.splitOn '/'
  (List.range' 1 (parts.length - 1)).map fun depth => ['/'].intercalate (parts.take depth)

/-- The deepest directory that a strict majority of `members` share. -/
def communityLabel (members : List Text) : Text :=
  let counts := Collect.tally (members.flatMap directoriesOf)
  let threshold := members.length / 2 + 1
  let shared := (counts.toList.filter fun entry => threshold ≤ entry.2).map Prod.fst
  (shared.argmin byDepth).getD rootLabel

/-- A directory alone can label two communities, and the hub is in one community only. -/
def labelled (members : List Text) (hub : Text) : Text :=
  if members.length = 1 then hub else communityLabel members ++ " around ".toList ++ hub

/-- One community with its scaled and its standard part of the modularity. -/
def communityOf (nodes : List Text) (resolution : ℚ) (group : Nat × List Nat) :
    Community × ℚ × ℚ :=
  let (community, members) := group
  let internal := compensatedSum (internalWeights weighted membership members community)
  let outgoing := compensatedSum (members.map fun member => weighted.degree[member]?.getD 0)
  let fraction := internal / weighted.twoM
  let ratio := outgoing / weighted.twoM
  let share := ratio * ratio
  let paths := members.map fun member => nodes[member]?.getD []
  let hub := paths[hubPosition weighted membership members community]?.getD []
  (⟨labelled paths hub, paths, internal, outgoing⟩,
    if weighted.twoM > 0 then (fraction - resolution * share, fraction - share) else (0, 0))

/-- The order of the communities: the larger first, then by members. -/
def Community.before (community other : Community) : Prop :=
  toLex (OrderDual.toDual community.members.length, community.members) ≤
    toLex (OrderDual.toDual other.members.length, other.members)

instance : DecidableRel Community.before := fun community other => inferInstanceAs (Decidable
  (toLex (OrderDual.toDual community.members.length, community.members) ≤
    toLex (OrderDual.toDual other.members.length, other.members)))

def grouped : List (Nat × List Nat) :=
  (Collect.pushAll Prod.fst Prod.snd membership.zipIdx).toList

def partition (nodes : List Text) (resolution : ℚ) (converged : Bool) : CommunityPartition :=
  let found := (grouped membership).map (communityOf weighted membership nodes resolution)
  { communities := (found.map Prod.fst).insertionSort Community.before
    modularity := (found.map (·.2.1)).foldl (· + ·) 0
    standardModularity := (found.map (·.2.2)).foldl (· + ·) 0
    resolution
    converged }

end Partition

/-- Partition the graph's files into communities, largest first, ties by members. -/
def detectCommunities (graph : FileGraph ℚ≥0) (resolution : ℚ) : CommunityPartition :=
  let weighted := symmetrise graph
  let membership := List.range graph.nodes.length
  if weighted.twoM ≤ 0 then partition weighted membership graph.nodes resolution true
  else
    let (membership, converged) := passes weighted resolution maxPasses weighted.degree membership
    partition weighted membership graph.nodes resolution converged

end Agentless.Graph
