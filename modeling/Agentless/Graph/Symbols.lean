import Agentless.Graph.Resolver

/-!
# The symbol graph

Every resolved reference, import and base class of one scan as edges between symbols and files.
An ambiguous reference is kept once and expanded on demand against the candidates of its name,
which are stored once for each name.
-/

namespace Agentless.Graph

open Text Syntax Std

/-- What one edge says its source does to its target. -/
inductive Relation where
  | imports | inherits | references
deriving DecidableEq, Repr, Ord

/-- One end of an edge: a symbol, or a whole file at one line (0 for no line). -/
structure Endpoint where
  node : Text
  path : Text
  line : Nat
  label : Text
  isSymbol : Bool
deriving DecidableEq, Repr

/-- One resolved relationship, with the evidence tier behind it. -/
structure SymbolEdge where
  source : Endpoint
  target : Endpoint
  name : Text
  relation : Relation
  tier : Tier
deriving DecidableEq, Repr

/-- One ambiguous reference. -/
structure AmbiguousReference where
  source : Endpoint
  name : Text
  relation : Relation
deriving DecidableEq, Repr

/-- The fields that the sort key leaves out. -/
def Endpoint.cmpRest (x y : Endpoint) : Ordering :=
  (compare x.path y.path).then ((compare x.label y.label).then (compare x.isSymbol y.isSymbol))

/-- An edge from a node to itself says nothing about how two things relate. -/
def SymbolEdge.new (source target : Endpoint) (name : Text) (relation : Relation) (tier : Tier) :
    Option SymbolEdge :=
  if source.node ≠ target.node then some ⟨source, target, name, relation, tier⟩ else none

def SymbolEdge.cmpTotal (x y : SymbolEdge) : Ordering :=
  (compare x.source.node y.source.node).then <| (compare x.target.node y.target.node).then <|
    (compare x.relation y.relation).then <| (compare x.tier y.tier).then <|
    (compare x.name y.name).then <| (compare x.source.line y.source.line).then <|
    (compare x.target.line y.target.line).then <| (x.source.cmpRest y.source).then <|
    x.target.cmpRest y.target

def AmbiguousReference.cmpTotal (x y : AmbiguousReference) : Ordering :=
  (compare x.source.node y.source.node).then <| (compare x.relation y.relation).then <|
    (compare x.name y.name).then <| (compare x.source.line y.source.line).then <|
    x.source.cmpRest y.source

/-- Sorts by a total comparison and drops what repeats. -/
def sortedDistinct {α : Type} [DecidableEq α] (cmp : α → α → Ordering) (items : List α) : List α :=
  (items.insertionSort fun x y => (cmp x y).isLE = true).destutter (· ≠ ·)

/-! ## Endpoints -/

def fileEndpoint (file : FileFacts) (line : Nat) : Endpoint := ⟨file.path, file.path, line, file.path, false⟩

def symbolEndpoint (file : FileFacts) (symbol : Symbol) : Endpoint :=
  ⟨stableId file.language file.path symbol, file.path, symbol.line, symbol.qualname, true⟩

def Definition.endpoint (candidate : Definition) : Endpoint :=
  symbolEndpoint candidate.file candidate.symbol

/-- The candidates' endpoints, each once, in candidate order. -/
def distinctEndpoints (resolution : Resolution) : List Endpoint :=
  resolution.candidates.foldl (fun endpoints candidate =>
    if endpoints.contains candidate.endpoint then endpoints
    else endpoints ++ [candidate.endpoint]) []

/-! ## Linking -/

/-- The parts of a graph while its files are linked. -/
structure Parts where
  edges : List SymbolEdge := []
  ambiguous : List AmbiguousReference := []
  candidates : List (Text × List Endpoint) := []
  candidateNames : TreeMap Text Nat compare := {}

/-- One name spelled at a source, and what it resolved to. -/
structure Link where
  source : Endpoint
  name : Text
  resolution : Resolution
  relation : Relation
deriving DecidableEq, Repr

def Parts.link (parts : Parts) (link : Link) : Parts :=
  if link.resolution.tier ≠ .ambiguous then
    { parts with
      edges := parts.edges ++ link.resolution.candidates.filterMap fun candidate =>
        SymbolEdge.new link.source candidate.endpoint link.name link.relation link.resolution.tier }
  else
    let parts := { parts with
      ambiguous := parts.ambiguous ++ [⟨link.source, link.name, link.relation⟩] }
    if parts.candidateNames.contains link.name then parts
    else
      { parts with
        candidateNames := parts.candidateNames.insert link.name parts.candidates.length
        candidates := parts.candidates ++ [(link.name, distinctEndpoints link.resolution)] }

section Build

variable (scopes : Scopes)

def Parts.importEdges (parts : Parts) (position : Nat) (file : FileFacts) : Parts :=
  { parts with
    edges := parts.edges ++
      ((scopes.perFile position).resolvedEdges file.path).filterMap fun (module, line, target) =>
        -- an import resolves only to a scanned file
        ((scopes.position target).bind fun at_ => scopes.files[at_]?).bind fun reached =>
          SymbolEdge.new (fileEndpoint file line) (fileEndpoint reached 0) module .imports .imported }

/-- Each declared base class of the file that a name resolves, in declaration order. -/
def inheritance (file : FileFacts) : List Link :=
  file.symbols.flatMap fun symbol =>
    symbol.bases.filterMap fun base =>
      if baseName base = [] then none
      else (resolve scopes (baseName base) file.path).map fun found =>
        ⟨symbolEndpoint file symbol, baseName base, found, .inherits⟩

/-- The symbol that owns the line of an occurrence, or the whole file at that line. -/
def siteSource (file : FileFacts) (line : Nat) : Endpoint :=
  match (ownerPosition file.symbols line).bind fun owner => file.symbols[owner]? with
  | some symbol => symbolEndpoint file symbol
  | none => fileEndpoint file line

/-- The reference links of a file, then its base-class links. -/
def symbolLinks (file : FileFacts) : List Link :=
  (resolvedSites scopes file).map (fun (reference, found) =>
    ⟨siteSource file reference.line, reference.name, found, .references⟩) ++ inheritance scopes file

def Parts.addFile (parts : Parts) (position : Nat) (file : FileFacts) : Parts :=
  let parts := parts.importEdges scopes position file
  if inNameGraph file then (symbolLinks scopes file).foldl Parts.link parts else parts

/-- Every resolved edge of one scan in one deterministic order, the ambiguous references kept
once each. -/
structure SymbolGraph where
  edges : List SymbolEdge
  ambiguous : List AmbiguousReference
  candidates : List (Text × List Endpoint)
  candidateNames : TreeMap Text Nat compare

def Parts.finish (parts : Parts) : SymbolGraph where
  edges := sortedDistinct SymbolEdge.cmpTotal parts.edges
  ambiguous := sortedDistinct AmbiguousReference.cmpTotal parts.ambiguous
  candidates := parts.candidates
  candidateNames := parts.candidateNames

/-- Resolves every reference, import and base class of the scan into edges. -/
def SymbolGraph.build : SymbolGraph :=
  (scopes.files.zipIdx.foldl (fun parts (file, position) => Parts.addFile scopes parts position file)
    {}).finish

end Build

/-! ## Ambiguous edges -/

namespace SymbolGraph

variable (graph : SymbolGraph)

def candidatesOf (name : Text) : List Endpoint :=
  ((graph.candidateNames[name]?).bind fun at_ => graph.candidates[at_]?).elim [] Prod.snd

/-- The edges that one ambiguous reference stands for, in candidate order. -/
def ambiguousEdges (reference : AmbiguousReference) : List SymbolEdge :=
  (graph.candidatesOf reference.name).filterMap fun target =>
    SymbolEdge.new reference.source target reference.name reference.relation .ambiguous

end SymbolGraph

end Agentless.Graph
