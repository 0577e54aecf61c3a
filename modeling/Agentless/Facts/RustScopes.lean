import Agentless.Graph.Resolver
import Agentless.Library.Extents
import Agentless.Library.Find

/-!
# The roles of Rust names

The names that a pattern binds, each use of a visible local, member names, the last segment of a
type path and the names of the items that are no symbol. Every binding site is one row of a table:
the name, the innermost item around it and the bytes where it is visible.
-/

namespace Agentless.Facts.RustScopes

open OrderedTree Agentless.Graph Text

inductive RustKind where
  | attributeItem | bracketedType | capturedPattern | closureExpression | constItem | enumItem
  | enumVariant | fieldIdentifier | fieldPattern | forExpression | foreignModItem | functionItem
  | functionSignatureItem | functionType | genericType | identifier | ifExpression | implItem
  | innerAttributeItem | letChain | letCondition | letDeclaration | macroDefinition
  | macroInvocation | matchArm | matchPattern | modItem | mutPattern | orPattern | parameter
  | parenthesizedExpression | refPattern | referencePattern | scopedIdentifier
  | scopedTypeIdentifier | scopedUseList | shorthandFieldIdentifier | slicePattern | staticItem
  | structItem | structPattern | tokenTree | traitItem | tuplePattern | tupleStructPattern
  | typeIdentifier | typeItem | unionItem | useAsClause | useDeclaration | useList | useWildcard
  | variadicParameter
  | other (name : Text)
deriving DecidableEq, Repr

inductive Field where
  | body | condition | consequence | macro_ | name | parameters | path | pattern | type_
deriving DecidableEq, Repr

/-- What the walk reads of a node, with the field that its parent holds it under. -/
structure Node where
  kind : RustKind
  field : Option Field
  named : Bool
  start : Nat
  stop : Nat
  line : Nat
  text : Text
deriving DecidableEq, Repr

abbrev Tree : Type := OrderedTree Node

abbrev NodeId : Type := Address

/-! ## The tables of the language -/

/-- The paths whose `name` is the last segment and whose `path` qualifies it. -/
def rustPaths : List RustKind := [.scopedIdentifier, .scopedTypeIdentifier]

def owners : List RustKind :=
  [.constItem, .enumItem, .foreignModItem, .functionItem, .functionSignatureItem, .implItem,
    .macroDefinition, .modItem, .staticItem, .structItem, .traitItem, .typeItem, .unionItem]

def opaqueScopes : List RustKind := [.attributeItem, .innerAttributeItem, .macroDefinition]

def nestedPatterns : List RustKind :=
  [.capturedPattern, .mutPattern, .orPattern, .parameter, .refPattern, .referencePattern,
    .slicePattern, .tuplePattern, .variadicParameter]

def typedPatterns : List RustKind := [.structPattern, .tupleStructPattern]

def pathParents : List RustKind :=
  [.scopedIdentifier, .scopedTypeIdentifier, .scopedUseList, .useAsClause, .useDeclaration,
    .useList, .useWildcard]

/-- The nodes between a `let` condition and the expression whose scope it opens. -/
def conditionWrappers : List RustKind := [.letChain, .matchPattern, .parenthesizedExpression]

def typeQualifiers : List RustKind := [.bracketedType, .genericType]

def namedQualifiers : List RustKind := [.identifier, .scopedIdentifier, .typeIdentifier]

/-- Where the names of a binding site are visible. -/
inductive Site where
  | parameters | signature | let_ | condition | arm | for_
deriving DecidableEq, Repr

def sites : List (RustKind × Site) :=
  [(.closureExpression, .parameters), (.forExpression, .for_), (.functionItem, .parameters),
    (.functionSignatureItem, .signature), (.functionType, .signature), (.letCondition, .condition),
    (.letDeclaration, .let_), (.matchArm, .arm)]

/-! ## The nodes of a tree -/

section Nodes

variable (tree : Tree)

def is (node : NodeId) (kind : RustKind) : Bool :=
  (tree.at? node).any fun subtree => subtree.label.kind = kind

def isAny (node : NodeId) (kinds : List RustKind) : Bool :=
  (tree.at? node).any fun subtree => kinds.contains subtree.label.kind

def text (node : NodeId) : Text := ((tree.at? node).map fun subtree => subtree.label.text).getD []

def line (node : NodeId) : Nat := ((tree.at? node).map fun subtree => subtree.label.line).getD 0

def startByte (node : NodeId) : Nat :=
  ((tree.at? node).map fun subtree => subtree.label.start).getD 0

def endByte (node : NodeId) : Nat := ((tree.at? node).map fun subtree => subtree.label.stop).getD 0

def namedChildren (node : NodeId) : List NodeId :=
  (tree.childrenOf node).filter fun child => (tree.at? child).any fun subtree => subtree.label.named

/-- The first child that hangs under the field. -/
def field (node : NodeId) (key : Field) : Option NodeId :=
  (tree.childrenOf node).find? fun child =>
    (tree.at? child).any fun subtree => subtree.label.field = some key

def keyed {α : Type} (node : NodeId) (table : List (RustKind × α)) : Option α :=
  (table.find? fun row => is tree node row.1).map Prod.snd

end Nodes

/-- Bytes from the start to before the end. -/
structure Range where
  start : Nat
  stop : Nat
deriving DecidableEq, Repr

def Range.isEmpty (range : Range) : Bool := range.stop ≤ range.start

def Range.contains (range : Range) (byte : Nat) : Bool :=
  range.start ≤ byte && byte < range.stop

def byteRange (tree : Tree) (node : NodeId) : Range := ⟨startByte tree node, endByte tree node⟩

def upperCaseStart : Text → Bool
  | [] => false
  | first :: _ => first.isUpper

/-! ## Places -/

/-- The innermost item around a node, and whether the node sits in an attribute or a macro
definition, or in the arguments of a macro call. -/
structure Place where
  owner : Option NodeId := none
  opaque_ : Bool := false
  inMacro : Bool := false
deriving DecidableEq, Repr

section Walk

variable (tree : Tree)

/-- The place of a child, from its parent's. -/
def Place.below (above : Place) (parent node : NodeId) : Place where
  owner := if isAny tree parent owners then some parent else above.owner
  opaque_ := above.opaque_ || isAny tree parent opaqueScopes
  inMacro := above.inMacro || (is tree parent .macroInvocation && is tree node .tokenTree)

/-- The place at the end of the steps down from a node. -/
def placeFrom (node : NodeId) (above : Place) : List Nat → Place
  | [] => above
  | position :: steps =>
    placeFrom (node ++ [position]) (above.below tree node (node ++ [position])) steps

def place (node : NodeId) : Place := placeFrom tree [] {} node

/-! ## Patterns -/

def subPatterns (node : NodeId) : List NodeId :=
  if isAny tree node nestedPatterns then namedChildren tree node
  else if isAny tree node typedPatterns then
    (namedChildren tree node).filter fun part => some part ≠ field tree node .type_
  else if !is tree node .fieldPattern then []
  else
    match field tree node .pattern with
    | some inner => [inner]
    | none => namedChildren tree node

mutual

def patternNamesFrom (node : NodeId) : Tree → List NodeId
  | .node _ parts =>
    if is tree node .identifier then
      if upperCaseStart (text tree node) then [] else [node]
    else if is tree node .shorthandFieldIdentifier then [node]
    else patternNamesIn (subPatterns tree node) node 0 parts

/-- The last part comes off the stack first. -/
def patternNamesIn (pending : List NodeId) (node : NodeId) (position : Nat) :
    List Tree → List NodeId
  | [] => []
  | part :: parts =>
    patternNamesIn pending node (position + 1) parts ++
      if node ++ [position] ∈ pending then patternNamesFrom (node ++ [position]) part else []

end

/-- The nodes that name what a pattern binds: each identifier in binding position and each
shorthand field name. An identifier that starts upper case is a constant or a unit variant. -/
def patternNames (pattern : NodeId) : List NodeId :=
  ((tree.at? pattern).map (patternNamesFrom tree pattern)).getD []

/-! ## Binding sites -/

/-- The parameters of the node's list are visible in the body. -/
def parameters (node : NodeId) (body : Option NodeId) : List (NodeId × Range) :=
  match field tree node .parameters with
  | none => []
  | some list =>
    let visible := (body.map (byteRange tree)).getD ⟨0, 0⟩
    (namedChildren tree list).map fun parameter => (parameter, visible)

def armPattern (arm : NodeId) : Option NodeId :=
  (field tree arm .pattern).bind fun matched =>
    (namedChildren tree matched).find? fun part => some part ≠ field tree matched .condition

/-- The end of the block that an `if` guards, else of the `while` or the match arm that holds the
condition. -/
def conditionEnd (condition : NodeId) : Nat :=
  match (ancestorsOf condition).find? fun parent => !isAny tree parent conditionWrappers with
  | some parent =>
    let guarded := if is tree parent .ifExpression then field tree parent .consequence else none
    endByte tree (guarded.getD parent)
  | none => endByte tree condition

def singlePattern (node : NodeId) (site : Site) : Option (NodeId × Range) :=
  let stop := endByte tree node
  let pattern := field tree node .pattern
  match site with
  | .parameters | .signature => none
  | .let_ =>
    match pattern, parentOf node with
    | some pattern, some block => some (pattern, ⟨stop, endByte tree block⟩)
    | _, _ => none
  | .condition => pattern.map fun pattern => (pattern, ⟨stop, conditionEnd tree node⟩)
  | .arm => (armPattern tree node).map fun pattern => (pattern, ⟨endByte tree pattern, stop⟩)
  | .for_ =>
    match pattern, field tree node .body with
    | some pattern, some body => some (pattern, byteRange tree body)
    | _, _ => none

/-- Each pattern of a binding site, with the bytes where its names are visible. -/
def sitePatterns (node : NodeId) (site : Site) : List (NodeId × Range) :=
  match site with
  | .parameters => parameters tree node (field tree node .body)
  | .signature => parameters tree node none
  | site => (singlePattern tree node site).toList

/-- The patterns that the walk binds, in document order. -/
def boundPatterns : List (NodeId × Range) :=
  tree.addresses.flatMap fun node =>
    match keyed tree node sites with
    | some site => sitePatterns tree node site
    | none => []

/-- A name that a pattern binds: visible to the code of the same owner. -/
structure Local where
  owner : Option NodeId
  visible : Range
deriving DecidableEq, Repr

def bindPattern (pattern : NodeId) (visible : Range) : List (Text × Local) :=
  if visible.isEmpty then []
  else
    (patternNames tree pattern).map fun name =>
      (text tree name, ⟨(place tree name).owner, visible⟩)

def locals : List (Text × Local) :=
  (boundPatterns tree).flatMap fun bound => bindPattern tree bound.1 bound.2

/-- Every node of a pattern is pattern syntax. -/
def inPattern (node : NodeId) : Bool :=
  (boundPatterns tree).any fun bound => (tree.descendantsOf bound.1).contains node

/-- Each identifier that a pattern binds is a binding. -/
def isBinding (node : NodeId) : Bool :=
  (boundPatterns tree).any fun bound =>
    (patternNames tree bound.1).contains node && is tree node .identifier

/-! ## Uses -/

def tokenBefore (node : NodeId) : Option Text := (prevSiblingOf node).map (text tree)

/-- A token after `.` or `::` is a member name or a path tail, and a token before `::` or `!` is a
path head or a macro name. -/
def pathToken (node : NodeId) : Bool :=
  let before := tokenBefore tree node
  let after := (tree.nextSiblingOf node).map (text tree)
  before = some ".".toList || before = some "::".toList || after = some "::".toList ||
    after = some "!".toList

/-- The name of an item or of an enum variant. -/
def namesItem (node : NodeId) : Bool :=
  match parentOf node with
  | none => false
  | some parent =>
    (isAny tree parent owners || is tree parent .enumVariant) &&
      field tree parent .name = some node

/-- What stands behind the last `::`. -/
def lastSegment (path : Text) : Text :=
  (((Find.splitOnce "::".toList path.reverse).map Prod.fst).getD path.reverse).reverse

/-- Rust's white space, which leaves out the separators that Python counts in. -/
def isWhitespace (c : Char) : Bool := isSpace c && !('\x1c' ≤ c && c ≤ '\x1f')

def trim (text : Text) : Text := (text.dropWhile isWhitespace).rdropWhile isWhitespace

/-- The last segment of a path whose qualifier is a type. -/
def typePathTail (node : NodeId) : Bool :=
  match parentOf node with
  | none => false
  | some qualified =>
    if !isAny tree qualified rustPaths || field tree qualified .name ≠ some node then false
    else
      match field tree qualified .path with
      | none => false
      | some path =>
        isAny tree path typeQualifiers ||
          (isAny tree path namedQualifiers &&
            upperCaseStart (trim (lastSegment (text tree path))))

/-- A field or a method name, a token after `.` in a macro call's arguments, or the last segment of
a type path. -/
def namesMember (node : NodeId) : Bool :=
  is tree node .fieldIdentifier ||
    ((place tree node).inMacro && is tree node .identifier &&
      tokenBefore tree node = some ".".toList) ||
    typePathTail tree node

/-- Not a path or use-tree segment, a macro name or an item name, and in a macro call's arguments
not a token of a path or a member. -/
def usePosition (node : NodeId) : Bool :=
  match parentOf node with
  | none => false
  | some parent =>
    if isAny tree parent pathParents || namesItem tree node then false
    else if is tree parent .macroInvocation then field tree parent .macro_ ≠ some node
    else !((place tree node).inMacro && is tree parent .tokenTree && pathToken tree node)

/-- A binding of the same name and owner whose names are visible where the use starts. -/
def visibleLocal (node : NodeId) : Bool :=
  ((locals tree).filter fun entry => entry.1 = text tree node).any fun entry =>
    entry.2.owner = (place tree node).owner && entry.2.visible.contains (startByte tree node)

/-! ## Roles -/

/-- The role after the binding sites. -/
def bindRole (node : NodeId) : Option Role := if isBinding tree node then some .binding else none

/-- A declaration keeps its role in an attribute or a macro definition; the other roles do not reach
their tokens. -/
def markSyntax (symbols : List Symbol) (node : NodeId) : Option Role :=
  match bindRole tree node with
  | some role => some role
  | none =>
    if namesItem tree node then
      if holds symbols (text tree node) (line tree node) then none else some .declaration
    else if !(place tree node).opaque_ && namesMember tree node then some .attribute
    else none

def markLocal (symbols : List Symbol) (node : NodeId) : Option Role :=
  match markSyntax tree symbols node with
  | some role => some role
  | none =>
    if !inPattern tree node && !(place tree node).opaque_ && is tree node .identifier &&
        usePosition tree node && visibleLocal tree node then some .localName
    else none

/-- The role that the Rust syntax gives a node, where it gives one. -/
def role (symbols : List Symbol) (node : NodeId) : Option Role := markLocal tree symbols node

end Walk

end Agentless.Facts.RustScopes
