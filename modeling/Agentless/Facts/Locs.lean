import Agentless.Facts.Values
import Agentless.Text.Word
import Agentless.Text.Quoted

/-!
# Location strings

Locations such as `class: A`, `function: A.b`, `line: 7` and `variable: X` are resolved against the
symbols of one file. A class location sets the class of the bare names after it.
-/

namespace Agentless.Facts

open Agentless.Graph CodePointString Find Syntax Text

def classKinds : List SymbolKind := [.class_, .dataclass, .enum, .protocol]

def unknownForm : Text :=
  "unknown location form: expected class:, function:, line: or variable:".toList

/-- The symbols of one file and the language they were extracted in. -/
structure FileSymbols where
  language : Language
  symbols : List Declared
deriving DecidableEq, Repr

/-- The one file that a set of locations resolves against, without symbols when no grammar parses
it. -/
structure LocTarget where
  path : Text
  totalLines : Nat
  file : Option FileSymbols
deriving DecidableEq, Repr

/-- A location string that resolved to nothing, and why. -/
structure UnrecognizedLoc where
  loc : Text
  reason : Text
deriving DecidableEq, Repr

structure LocResolution where
  stableIds : List StableId
  spans : List (Nat × Nat)
  intervals : List (Nat × Nat)
  unrecognized : List UnrecognizedLoc
deriving DecidableEq, Repr

inductive Hit where
  | found (span : Nat × Nat) (id : Option StableId) (class_ : Option Text)
  | refused (reason : Text)
deriving DecidableEq, Repr

def Hit.isFound : Hit → Bool
  | .found .. => true
  | .refused _ => false

/-- The decimal integer of a line location, and whether it is above zero. -/
structure LineNumber where
  text : Text
  positive : Bool

def LineNumber.read (head : Text) : Option LineNumber :=
  (convertibleInt head).map fun found =>
    let digits := found.digits.dropWhile (· = '0')
    let text := if digits = [] then ['0'] else if found.negative then '-' :: digits else digits
    ⟨text, digits ≠ [] && !found.negative⟩

/-- The line, when the number is one of the file's lines. -/
def LineNumber.within (number : LineNumber) (total : Nat) : Option Nat :=
  let line := digitsValue number.text
  if number.text.all isAsciiDigit && line ≤ maxLine && number.positive && line ≤ total then some line
  else none

section Resolver

-- the rule for printable characters in quoted names, and the file
variable (isPrintable : Nat → Bool) (target : LocTarget)

def repr (text : Text) : Text := quoted isPrintable ⟨utf8 text⟩

def LocTarget.symbols : List Declared :=
  match target.file with
  | some file => file.symbols
  | none => []

/-- The symbol's span and id, and the class that the locations after it fall back on. -/
def foundIn (symbol : Declared) (class_ : Option Text) : Hit :=
  .found (symbol.line, symbol.endLine)
    (target.file.map fun file => StableId.of file.language target.path symbol.toSymbol) class_

def found (symbol : Declared) : Hit := foundIn target symbol none

/-- The match with the ordinal. -/
def pick (matching : List Declared) (name : Text) (ordinal : Nat) : Hit :=
  match matching.find? fun symbol => symbol.duplicateIndex = ordinal with
  | some chosen => found target chosen
  | none => .refused (target.path ++ " defines ".toList ++ Nat.toDigits 10 matching.length ++
      " symbols named ".toList ++ repr isPrintable name ++ ", so there is no number ".toList ++
      Nat.toDigits 10 (ordinal + 1))

def noClass (name : Text) : Hit :=
  .refused ("no class named ".toList ++ repr isPrintable name ++ " in ".toList ++ target.path)

def class_ (name : Text) : Hit :=
  match target.symbols.find? fun symbol =>
    classKinds.contains symbol.kind && symbol.name = name with
  | some symbol => foundIn target symbol (some name)
  | none => noClass isPrintable target name

/-- A member of a class that the file defines. -/
def method (owner member : Text) (ordinal : Nat) : Hit :=
  if target.symbols.any fun symbol => classKinds.contains symbol.kind && symbol.name = owner then
    let methods := target.symbols.filter fun symbol => symbol.parent = owner && symbol.name = member
    if methods = [] then
      .refused ("class ".toList ++ repr isPrintable owner ++ " has no member named ".toList ++
        repr isPrintable member)
    else pick isPrintable target methods (owner ++ '.' :: member) ordinal
  else noClass isPrintable target owner

/-- A bare method name resolves only when exactly one class defines it. -/
def unqualifiedMethod (name : Text) (ordinal : Nat) : Hit :=
  let methods := target.symbols.filter fun symbol => symbol.parent ≠ [] && symbol.name = name
  if methods = [] then
    .refused ("no function or method named ".toList ++ repr isPrintable name ++ " in ".toList ++
      target.path)
  else if 1 < methods.length then
    let owners := ((methods.map fun symbol => symbol.parent).insertionSort (· ≤ ·)).dedup
    .refused (repr isPrintable name ++ " is ambiguous: defined in ".toList ++
      ", ".toList.intercalate owners)
  else pick isPrintable target methods name ordinal

/-- `outer.inner` names a nested function before `Class.method` names a method. -/
def dotted (wanted owner member : Text) (ordinal : Nat) : Hit :=
  let nested := target.symbols.filter fun symbol =>
    symbol.kind = .function && symbol.parent = owner && symbol.name = member
  if nested = [] then method isPrintable target owner member ordinal
  else pick isPrintable target nested wanted ordinal

/-- A module function, else a method of the current class, else the one method of that name. -/
def bare (wanted : Text) (ordinal : Nat) (currentClass : Text) : Hit :=
  let functions := target.symbols.filter fun symbol =>
    symbol.kind = .function && symbol.name = wanted
  if functions = [] then
    let hit := method isPrintable target currentClass wanted ordinal
    if currentClass ≠ [] && hit.isFound then hit
    else unqualifiedMethod isPrintable target wanted ordinal
  else pick isPrintable target functions wanted ordinal

/-- A trailing `#N` addresses the Nth symbol of a name that the file spells more than once. -/
def function (name currentClass : Text) : Hit :=
  let (wanted, ordinal) := splitOrdinal name
  match rsplitOnce '.' wanted with
  | some (owner, member) => dotted isPrintable target wanted owner member ordinal
  | none => bare isPrintable target wanted ordinal currentClass

/-- The first word is the number, and the rest is ignored. -/
def line (text : Text) : Hit :=
  match (splitWhitespace text).head? with
  | none => .refused "line location carries no number".toList
  | some head =>
    match LineNumber.read head with
    | none => .refused (repr isPrintable head ++ " is not a line number".toList)
    | some number =>
      match number.within target.totalLines with
      | some line => .found (line, line) none none
      | none => .refused ("line ".toList ++ number.text ++ " is outside ".toList ++ target.path ++
          " (1-".toList ++ Nat.toDigits 10 target.totalLines ++ ")".toList)

def variable_ (text : Text) : Hit :=
  match (splitWhitespace text).head? with
  | none => .refused "variable location carries no name".toList
  | some name =>
    match target.symbols.find? fun symbol => symbol.kind = .constant && symbol.name = name with
    | some symbol => found target symbol
    | none => .refused ("no module-level constant named ".toList ++ repr isPrintable name ++
        " in ".toList ++ target.path)

/-- `line:` and `variable:` come before the dotted names, so `line: 7 in A.b` is a line; a dotted
`class: A.b` falls through and names a method. -/
def resolve (loc currentClass : Text) : Hit :=
  let rest := strip ((splitOnce ":".toList loc).elim [] Prod.snd)
  let starts (form : Text) := form.isPrefixOf loc
  if starts "class:".toList && !loc.contains '.' then class_ isPrintable target rest
  else if starts "line:".toList then line isPrintable target rest
  else if starts "variable:".toList then variable_ isPrintable target rest
  else if starts "function:".toList || starts "method:".toList || loc.contains '.' then
    function isPrintable target (if rest = [] then loc else rest) currentClass
  else .refused unknownForm

/-- One location for each line of each entry that is not blank. -/
def splitLocs (locs : List Text) : List Text :=
  ((locs.flatMap fun block => splitlines block false).map strip).filter (· ≠ [])

/-- Each span widened by `context` and clipped to the file. -/
def widened (spans : List (Nat × Nat)) (context : Nat) : List (Nat × Nat) :=
  (spans.map fun (start, stop) =>
    (max (start - context) 1, min (min (stop + context) maxLine) target.totalLines)).filter
      fun (low, high) => low ≤ high

/-- Where the locations read so far stand: the current class, the ids and spans, and the refusals. -/
structure Locating where
  currentClass : Text
  stableIds : List StableId
  spans : List (Nat × Nat)
  unrecognized : List UnrecognizedLoc
deriving DecidableEq, Repr

def locate (state : Locating) (loc : Text) : Locating :=
  match resolve isPrintable target loc state.currentClass with
  | .refused reason => { state with unrecognized := state.unrecognized ++ [⟨loc, reason⟩] }
  | .found span id class_ =>
    { state with
      currentClass := class_.getD state.currentClass
      spans := state.spans ++ [span]
      stableIds := state.stableIds ++ id.toList }

/-- The locations resolved from a current class on. -/
def resolveLocsFrom (currentClass : Text) (locs : List Text) (context : Nat) : LocResolution :=
  let located := (splitLocs locs).foldl (locate isPrintable target) ⟨currentClass, [], [], []⟩
  { stableIds := located.stableIds.eraseDups
    spans := located.spans
    intervals := mergeIntervals (widened target located.spans context)
    unrecognized := located.unrecognized }

def resolveLocs (locs : List Text) (context : Nat) : LocResolution :=
  resolveLocsFrom isPrintable target [] locs context

end Resolver

end Agentless.Facts
