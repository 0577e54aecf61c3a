import Agentless.Library.Boundary
import Agentless.Library.OrderedTree

/-!
# The flat table of a parse

The nodes of a tree in the order in which a cursor walks it. Each record has the index of the node's
parent and the index behind its last descendant, and the navigation reads nothing else.
-/

namespace Agentless.Syntax

open OrderedTree

def maxIndex : Nat := 2 ^ 32 - 1

def noParent : Nat := maxIndex

/-- What the parser says of a node. -/
structure NodeData where
  start : Nat
  stop : Nat
  kind : Nat
  field : Nat
  named : Bool
  missing : Bool
  error : Bool
  hasError : Bool
deriving DecidableEq, Repr

/-- One node in cursor preorder. Its children start at the next index, and each sibling starts at
the previous sibling's `subtreeEnd`. -/
structure Record where
  start : Nat
  stop : Nat
  parent : Nat
  subtreeEnd : Nat
  kind : Nat
  field : Nat
  flags : Nat
deriving DecidableEq, Repr

/-- Why a tree cannot be flattened: a count above the index range, or the index of a node off a
character boundary. -/
inductive FlatError where
  | tooLarge
  | boundary (index : Nat)
deriving DecidableEq, Repr

def namedFlag : Nat := 1

def missingFlag : Nat := 2

def errorFlag : Nat := 4

def hasErrorFlag : Nat := 8

/-! ## Building -/

def indexU32 (index : Nat) : Except FlatError Nat :=
  if index ≤ maxIndex then .ok index else .error .tooLarge

def NodeData.flags (data : NodeData) : Nat :=
  [(data.named, namedFlag), (data.missing, missingFlag), (data.error, errorFlag),
    (data.hasError, hasErrorFlag)].foldl (fun flags entry =>
      if entry.1 then flags ||| entry.2 else flags) 0

/-- The record of the node under the cursor, its subtree still open. -/
def record (data : NodeData) (opened : List Nat) : Except FlatError Record := do
  let start ← indexU32 data.start
  let stop ← indexU32 data.stop
  return {
    start
    stop
    parent := opened.head?.getD noParent
    subtreeEnd := 0
    kind := data.kind
    field := data.field
    flags := data.flags }

def closeAt (records : List Record) (index subtreeEnd : Nat) : List Record :=
  records.modify index fun record => { record with subtreeEnd }

/-- Move to the next sibling of the current node or of its nearest ancestor, closing each subtree
left behind. There is no next cursor at the end of the walk. -/
def climb (cursor : Cursor NodeData) (opened : List Nat) (records : List Record) :
    Except FlatError (Option (Cursor NodeData × List Nat) × List Record) :=
  match cursor.gotoNextSibling with
  | some next => .ok (some (next, opened), records)
  | none =>
    match hparent : cursor.gotoParent with
    | none => .ok (none, records)
    | some parent =>
      match indexU32 records.length with
      | .error error => .error error
      | .ok closed => climb parent opened.tail (closeAt records (opened.head?.getD 0) closed)
termination_by cursor.frames.length
decreasing_by exact Cursor.frames_gotoParent hparent

theorem remaining_climb {cursor next : Cursor NodeData} {opened opened' : List Nat}
    {records records' : List Record}
    (h : climb cursor opened records = .ok (some (next, opened'), records')) :
    next.remaining = cursor.behind := by
  fun_induction climb cursor opened records with
  | case1 cursor opened records sibling hsibling =>
    obtain ⟨heq, -⟩ := Prod.mk.inj (Except.ok.inj h)
    obtain ⟨rfl, -⟩ := Prod.mk.inj (Option.some.inj heq)
    exact Cursor.remaining_gotoNextSibling hsibling
  | case2 => cases h
  | case3 => cases h
  | case4 cursor opened records hlast parent hparent closed hclosed ih =>
    rw [ih h, Cursor.behind_gotoParent hlast hparent]

/-- The walk over the tree from the cursor on. The addition of a leaf's end wraps. -/
def walk (cursor : Cursor NodeData) (opened : List Nat) (records : List Record) :
    Except FlatError (List Record) :=
  match indexU32 records.length with
  | .error error => .error error
  | .ok index =>
    match record cursor.focus.label opened with
    | .error error => .error error
    | .ok found =>
      match hchild : cursor.gotoFirstChild with
      | some child => walk child (index :: opened) (records ++ [found])
      | none =>
        match hclimb : climb cursor opened
            (closeAt (records ++ [found]) index ((index + 1) % 2 ^ 32)) with
        | .error error => .error error
        | .ok (none, records) => .ok records
        | .ok (some (next, opened), records) => walk next opened records
termination_by cursor.remaining
decreasing_by
  · exact Cursor.remaining_gotoFirstChild hchild
  · exact (remaining_climb hclimb).trans_lt (Cursor.behind_lt_remaining cursor)

def records (tree : OrderedTree NodeData) : Except FlatError (List Record) :=
  walk ⟨tree, []⟩ [] []

def onBoundaries (source : Text) (record : Record) : Bool :=
  isCharBoundary (utf8 source) record.start && isCharBoundary (utf8 source) record.stop

/-- The offsets behind the line feeds of `bytes`, which stand at `index`. -/
def lineStartsFrom (index : Nat) : Bytes → Except FlatError (List Nat)
  | [] => .ok []
  | byte :: bytes => do
    if byte = 10 then
      let start ← indexU32 (index + 1)
      return start :: (← lineStartsFrom (index + 1) bytes)
    else lineStartsFrom (index + 1) bytes

def lineStarts (source : Text) : Except FlatError (List Nat) := do
  return 0 :: (← lineStartsFrom 0 (utf8 source))

structure Flat where
  records : List Record
  lineStarts : List Nat
deriving DecidableEq, Repr

namespace Flat

def build (tree : OrderedTree NodeData) (source : Text) : Except FlatError Flat := do
  let records ← Syntax.records tree
  match records.findIdx? fun record => !onBoundaries source record with
  | some index => throw (.boundary (← indexU32 index))
  | none => return { records, lineStarts := (← Syntax.lineStarts source) }

/-! ## Navigation

An index that the table does not hold panics, which is `none` here. A loop has fuel, and `none` also
stands for a loop that does not end. -/

variable (flat : Flat)

/-- Rows count line feeds only, and columns count bytes. -/
def point (byte : Nat) : Nat × Nat :=
  let row := (flat.lineStarts.takeWhile fun start => decide (start ≤ byte)).length - 1
  (row, byte - flat.lineStarts.getD row 0)

/-- The siblings from `next` up to the end of their parent's subtree. -/
def siblings (stop : Nat) : (fuel next : Nat) → Option (List Nat)
  | fuel, next =>
    if next < stop then
      match fuel with
      | 0 => none
      | fuel + 1 => do
        let child ← flat.records[next]?
        return next :: (← siblings stop fuel child.subtreeEnd)
    else some []

def children (node : Nat) : Option (List Nat) := do
  let record ← flat.records[node]?
  flat.siblings record.subtreeEnd record.subtreeEnd (node + 1)

/-- The node's parent, or `some none` for the root. -/
def parent (node : Nat) : Option (Option Nat) := do
  let record ← flat.records[node]?
  return if record.parent ≠ noParent then some record.parent else none

/-- Walk up from `current` to the child of `parent` that it is below. -/
def childAbove (parent : Nat) : (fuel current : Nat) → Option (Option Nat)
  | fuel, current =>
    if current = parent then some none
    else
      match fuel with
      | 0 => none
      | fuel + 1 => do
        match ← flat.parent current with
        | none => return none
        | some up => if up = parent then return some current else childAbove parent fuel up

/-- The sibling right before the node. In preorder the record before a node is its parent or the
last node of the subtree of its previous sibling, so the walk up from there costs the depth, not the
sibling count. -/
def prevSibling (node : Nat) : Option (Option Nat) := do
  match ← flat.parent node with
  | none => return none
  | some parent => if node = 0 then return none else flat.childAbove parent node (node - 1)

/-- The sibling right after the node: the record right after its subtree, while the parent's subtree
still holds it. -/
def nextSibling (node : Nat) : Option (Option Nat) := do
  match ← flat.parent node with
  | none => return none
  | some parent =>
    let next := (← flat.records[node]?).subtreeEnd
    return if next < (← flat.records[parent]?).subtreeEnd then some next else none

def isLeaf (node : Nat) : Option Bool := do
  return (← flat.records[node]?).subtreeEnd = node + 1

/-- The node and every node below it, in document order. -/
def descendants (node : Nat) : Option (List Nat) := do
  let record ← flat.records[node]?
  return List.range' node (record.subtreeEnd - node)

end Flat

end Agentless.Syntax
