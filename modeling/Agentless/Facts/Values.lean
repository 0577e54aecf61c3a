import Agentless.Graph.StableId
import Agentless.Library.Lines

/-!
# Slices of a file

A slice is the numbered lines of some ranges of a file, with `...` at each gap and with the header
lines of the symbols that enclose a range above it.
-/

namespace Agentless.Facts

inductive SymbolKind where
  | class_ | function | method | constant | typeAlias | protocol | dataclass | enum | decorator
deriving DecidableEq, Repr

/-- What a slice reads of a symbol. -/
structure ScopeSymbol where
  kind : SymbolKind
  nameLine : Nat
  endLine : Nat
deriving DecidableEq, Repr

/-- The kinds whose header line a slice repeats above a line inside them. -/
def scopeKinds : List SymbolKind := [.class_, .function, .method, .protocol, .dataclass, .enum]

/-- The refusal of a slice whose every requested range falls outside the file. -/
structure OutsideFile where
  total : Nat
  requested : List (Nat × Nat)
deriving DecidableEq, Repr

def OutsideFile.message (refusal : OutsideFile) : Text :=
  "no requested line range falls inside the file's ".toList ++ Nat.toDigits 10 refusal.total ++
    " lines: ".toList ++ ", ".toList.intercalate (refusal.requested.map fun range =>
      Nat.toDigits 10 range.1 ++ '-' :: Nat.toDigits 10 range.2)

/-- One row of a slice: a line with its number, or the mark of a gap. -/
inductive Row where
  | numbered (number : Nat) (line : Text)
  | elision
deriving DecidableEq, Repr

def linePrefix (number : Nat) : Text := Nat.toDigits 10 number ++ "| ".toList

def Row.text : Row → Text
  | .numbered number line => linePrefix number ++ line
  | .elision => "...".toList

def Row.number? : Row → Option Nat
  | .numbered number _ => some number
  | .elision => none

def maxLine : Nat := 2 ^ 32 - 1

/-- How many lines the text holds, not counting a final newline. -/
def fileLines (text : Text) : Nat :=
  (splitLines text).length - if text = [] ∨ text.getLast? = some '\n' then 1 else 0

/-- The count of the lines, as far as a line number goes. -/
def lineCount (text : Text) : Nat := min (fileLines text) maxLine

/-! ## Ranges -/

/-- A range that starts inside the last one is merged with it. -/
def mergeInterval (merged : List (Nat × Nat)) (range : Nat × Nat) : List (Nat × Nat) :=
  match merged.getLast? with
  | some last =>
    if range.1 ≤ last.2 then merged.dropLast ++ [(last.1, max last.2 range.2)]
    else merged ++ [range]
  | none => [range]

/-- Merge 1-based inclusive intervals that overlap, sorted by start. -/
def mergeIntervals (intervals : List (Nat × Nat)) : List (Nat × Nat) :=
  (intervals.insertionSort fun range other => range.1 ≤ other.1).foldl mergeInterval []

/-- No intervals ask for the whole file; intervals that all clip to nothing are refused. -/
def clamp (intervals : List (Nat × Nat)) (total : Nat) : Except OutsideFile (List (Nat × Nat)) :=
  if intervals = [] then .ok [(1, total)]
  else
    let clipped := ((mergeIntervals intervals).map fun range =>
      (max range.1 1, min range.2 total)).filter fun range => range.1 ≤ range.2
    if clipped = [] then .error ⟨total, intervals⟩ else .ok clipped

/-! ## Rows -/

section Rows

variable (lines : List Text) (symbols : List ScopeSymbol)

def numbered (number : Nat) : Row := .numbered number (lines[number - 1]?.getD [])

/-- Whether a header of the symbol belongs above a range that starts at `start`. -/
def ScopeSymbol.encloses (symbol : ScopeSymbol) (start : Nat) : Bool :=
  scopeKinds.contains symbol.kind && symbol.nameLine < start && start ≤ symbol.endLine

/-- A header that was not shown is shown now. -/
def showHeader (state : List Nat × List Nat) (symbol : ScopeSymbol) : List Nat × List Nat :=
  let (headers, shown) := state
  if shown.contains symbol.nameLine || lines.length < symbol.nameLine then (headers, shown)
  else (headers ++ [symbol.nameLine], symbol.nameLine :: shown)

/-- The header line of each scope symbol that opens before `start` and reaches it, outermost first,
and every line shown so far; under the last header, `...` marks a gap down to `start`. -/
def scopeHeaders (start : Nat) (shown : List Nat) : List Row × List Nat :=
  let enclosing := (symbols.filter (·.encloses start)).insertionSort fun symbol other =>
    symbol.nameLine ≤ other.nameLine
  let (headers, shown) := enclosing.foldl (showHeader lines) ([], shown)
  let gap := if headers.getLast?.any (· + 1 < start) then [Row.elision] else []
  (headers.map (numbered lines) ++ gap, shown)

/-- The rows so far, every line already shown, header or content, and the last line covered. -/
structure Slicing where
  rows : List Row
  shown : List Nat
  coveredTo : Nat

def sliceRange (state : Slicing) (range : Nat × Nat) : Slicing :=
  let gap := if range.1 > state.coveredTo + 1 then [Row.elision] else []
  let (headers, shown) := scopeHeaders lines symbols range.1 state.shown
  let content := List.range' range.1 (range.2 + 1 - range.1)
  { rows := state.rows ++ gap ++ headers ++ content.map (numbered lines)
    shown := shown ++ content
    coveredTo := max state.coveredTo range.2 }

end Rows

def sliceRows (content : Text) (intervals : List (Nat × Nat)) (symbols : List ScopeSymbol) :
    Except OutsideFile (List Row) := do
  let lines := splitLines content
  let total := lineCount content
  let clipped ← clamp intervals total
  let sliced := clipped.foldl (sliceRange lines symbols) ⟨[], [], 0⟩
  return sliced.rows ++ if sliced.coveredTo < total then [Row.elision] else []

/-- Render the content as numbered lines within the 1-based inclusive intervals, or whole when
there are none. -/
def sliceLines (content : Text) (intervals : List (Nat × Nat)) (symbols : List ScopeSymbol) :
    Except OutsideFile Text :=
  (sliceRows content intervals symbols).map fun rows => joinLines (rows.map Row.text)

end Agentless.Facts

/-!
## Symbols with their rationales

A declaration as the views read it, the rationale comments attached to it, and the handle that
addresses one of them.
-/

namespace Agentless.Facts

open Agentless.Graph Syntax

def SymbolKind.asStr : SymbolKind → Text
  | .class_ => "class".toList
  | .function => "function".toList
  | .method => "method".toList
  | .constant => "constant".toList
  | .typeAlias => "type_alias".toList
  | .protocol => "protocol".toList
  | .dataclass => "dataclass".toList
  | .enum => "enum".toList
  | .decorator => "decorator".toList

inductive RationaleKind where
  | note | why | hack | todo | citation
deriving DecidableEq, Repr

def RationaleKind.asStr : RationaleKind → Text
  | .note => "note".toList
  | .why => "why".toList
  | .hack => "hack".toList
  | .todo => "todo".toList
  | .citation => "citation".toList

structure Rationale where
  kind : RationaleKind
  text : Text
  line : Nat
  duplicateIndex : Nat
deriving DecidableEq, Repr

/-- A symbol of the name graph with its kind, its one-line signature and its rationales. -/
structure Declared extends Graph.Symbol where
  kind : SymbolKind
  signature : Text
  rationales : List Rationale
deriving DecidableEq, Repr

/-- The handle of one rationale below a symbol, with an ordinal from the second on its line on. -/
def rationaleHandle (language : Language) (path : Text) (symbol : Graph.Symbol)
    (rationale : Rationale) : Text :=
  let handle := stableId language path symbol ++ rationaleMarker ++ Nat.toDigits 10 rationale.line
  if rationale.duplicateIndex = 0 then handle
  else handle ++ '#' :: Nat.toDigits 10 (rationale.duplicateIndex + 1)

end Agentless.Facts
