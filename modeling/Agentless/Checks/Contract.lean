import Agentless.Checks.Matching
import Agentless.Checks.Rules

/-!
# Contract drift

`contract_drift` reports each hit of a contract rule that a change adds to a boundary module. A hit
of the old texts carries over to the new ones by its rule, the unit that holds it and its text, and
a unit that was matched keeps its old name.
-/

namespace Agentless.Checks

open Groups Syntax

/-! ## The pairs -/

/-- One file's whole text before and after a change, `none` for a side that does not exist. -/
structure TextPair where
  path : Text
  old : Option Text
  new : Option Text
deriving DecidableEq, Repr

inductive Unmeasurable where
  | unsupported
  | doesNotParse (line : Nat)
  | tokenizer (rejected : Text)
deriving DecidableEq, Repr

/-- Why one side of a pair has no measurement. -/
inductive SideError where
  | unparsable
  | unmeasurable (unmeasurable : Unmeasurable)
  | recorded (reason : Text)
deriving DecidableEq, Repr

/-- A failure that stops a check run. -/
inductive Error where
  | repeatedPath (path : Text)
  | side (path : Text) (source : SideError)
deriving DecidableEq, Repr

/-- One side of a pair: its measurement, or why there is none. -/
abbrev Side : Type := Except SideError (Measured Parsed)

structure Pair where
  path : Text
  language : Option Language
  old : Option Side
  new : Option Side

/-- The language of a path that the checks read, and the measurement of a text. -/
structure Measurer where
  pairLanguage : Text → Option Language
  measured : Language → Text → Side

/-- A side exists when its text does and the checks read the path. -/
def Measurer.side (measurer : Measurer) (path : Text) (text : Option Text) : Option Side := do
  return measurer.measured (← measurer.pairLanguage path) (← text)

def Measurer.pair (measurer : Measurer) (texts : TextPair) : Pair where
  path := texts.path
  language := measurer.pairLanguage texts.path
  old := measurer.side texts.path texts.old
  new := measurer.side texts.path texts.new

/-! ## Findings -/

inductive Severity where
  | advisory
  | warning
  | notChecked
deriving DecidableEq, Repr

structure Finding where
  check : Text
  severity : Severity
  message : Text
  path : Text
  line : Nat
  evidence : Text
deriving DecidableEq, Repr

/-- One contract hit's identity: the rule, the unit that holds it, and its normalized text. -/
structure DriftKey where
  rule : Text
  unit : Text
  capture : Text
deriving DecidableEq, Repr

inductive CheckGap where
  | noBoundaryGlobs
  | noRulesForLanguage (language : Language)
deriving DecidableEq, Repr

inductive Detail where
  | drift (key : DriftKey)
  | gap (gap : CheckGap)
deriving DecidableEq, Repr

structure PairFinding where
  finding : Finding
  detail : Option Detail
deriving DecidableEq, Repr

def contractDriftName : Text := "contract_drift".toList

def notChecked (path message evidence : Text) (gap : Option CheckGap) : PairFinding where
  finding := { check := contractDriftName, severity := .notChecked, message, path, line := 0, evidence }
  detail := gap.map .gap

def precedes (x y : Finding) : Prop :=
  x.path < y.path ∨ x.path = y.path ∧ (x.line < y.line ∨ x.line = y.line ∧
    (x.message < y.message ∨ x.message = y.message ∧ x.evidence ≤ y.evidence))

instance : DecidableRel precedes := fun x y => inferInstanceAs (Decidable
  (x.path < y.path ∨ x.path = y.path ∧ (x.line < y.line ∨ x.line = y.line ∧
    (x.message < y.message ∨ x.message = y.message ∧ x.evidence ≤ y.evidence))))

def sorted (findings : List PairFinding) : List PairFinding :=
  findings.insertionSort fun x y => precedes x.finding y.finding

/-! ## Reading the sides -/

def unmeasurableSource : Text := "UnmeasurableSource".toList

/-- The reason for a file that a parse or tokenizer failure leaves without a measurement. -/
def Unmeasurable.reason (path : Text) : Unmeasurable → Option Text
  | .doesNotParse line => some (path ++ " does not parse: the first syntax error is at line ".toList ++
      Nat.toDigits 10 line ++ (". Complexity is measured only for a file that parses. Fix the " ++
        "syntax error, then measure the file again.").toList)
  | .tokenizer rejected => some (path ++ ": Python's tokenizer rejects this file (".toList ++ rejected ++
      ("). Complexity is measured only for a file the tokenizer accepts, the same as scb-check. " ++
        "Fix the line the error names, then measure the file again.").toList)
  | .unsupported => none

/-- A parse or tokenizer failure is a property of the text, so it becomes a row; any other failure
is bad input or data, so it stops the run. -/
def sideReason (path : Text) (error : SideError) : Except Error Text :=
  let worded := match error with
    | .unmeasurable unmeasurable => unmeasurable.reason path
    | .recorded reason => some reason
    | .unparsable => none
  match worded with
  | some reason => .ok reason
  | none => .error (.side path error)

def notMeasured (path reason change : Text) : Text :=
  "not checked: contract_drift did not compare ".toList ++ path ++ ", because its text ".toList ++
    change ++ " the change cannot be measured. ".toList ++ reason

/-- A value, or a row that says why there is none. -/
inductive Read (α : Type) where
  | value (value : α)
  | row (row : PairFinding)

/-- A side with its measurement, for `change` before or after. -/
def readSide (path change : Text) : Option Side → Except Error (Read (Option (Measured Parsed)))
  | none => .ok (.value none)
  | some (.ok measured) => .ok (.value (some measured))
  | some (.error error) => do
    let reason ← sideReason path error
    return .row (notChecked path (notMeasured path reason change) unmeasurableSource none)

/-- The old side is read first, and a failure there leaves the new side unread. -/
def readSides (pair : Pair) (language : Language) : Except Error (Read (Sides Parsed)) := do
  match ← readSide pair.path "before".toList pair.old with
  | .row row => return .row row
  | .value old =>
    match ← readSide pair.path "after".toList pair.new with
    | .row row => return .row row
    | .value new => return .value { path := pair.path, language, old, new }

/-- The first path that comes twice. -/
def repeated (seen : List Text) : List Pair → Option Text
  | [] => none
  | pair :: pairs => if pair.path ∈ seen then some pair.path else repeated (pair.path :: seen) pairs

def refuseRepeats (pairs : List Pair) : Except Error PUnit :=
  match repeated [] pairs with
  | some path => .error (.repeatedPath path)
  | none => .ok ⟨⟩

def readPairs : List Pair → Except Error (List (Sides Parsed) × List PairFinding)
  | [] => .ok ([], [])
  | pair :: pairs =>
    match pair.language with
    | none => readPairs pairs
    | some language => do
      let read ← readSides pair language
      let (values, rows) ← readPairs pairs
      return match read with
        | .value sides => (sides :: values, rows)
        | .row row => (values, row :: rows)

def eachPair (pairs : List Pair) : Except Error (List (Sides Parsed) × List PairFinding) := do
  refuseRepeats pairs
  readPairs pairs

/-! ## Boundary globs -/

def globstarElement : Text := "**".toList

/-- A star stays inside one segment, so each piece between stars takes its leftmost place after the
previous one, and no choice is ever undone. -/
def middlesMatch : List Text → Text → Bool
  | [], _ => true
  | piece :: pieces, text =>
    match text.tails.findIdx? (piece.isPrefixOf ·) with
    | some found => middlesMatch pieces (text.drop (found + piece.length))
    | none => false

def segmentMatches (pattern text : Text) : Bool :=
  match pattern.splitOn '*' with
  | head :: second :: rest =>
    let middle := (second :: rest).dropLast
    let tail := (second :: rest).getLast?.getD []
    tail.length ≤ text.length && head.length ≤ text.length - tail.length &&
      head.isPrefixOf text && tail.isSuffixOf text &&
      middlesMatch middle ((text.take (text.length - tail.length)).drop head.length)
  | _ => pattern = text

/-- Whether the elements so far consume exactly the first segments, for each number of them. -/
def globStep (reached : List Bool) (segments : List Text) (element : Text) : List Bool :=
  false :: (reached.zip segments).map fun entry => entry.1 && segmentMatches element entry.2

/-- `**` consumes whole non-empty segments: one or more at the end of a glob, any number inside. -/
def globstar (reached : List Bool) (segments : List Text) (last : Bool) : List Bool :=
  let spread := (reached.zip segments).foldl (fun spread entry =>
    spread ++ [entry.2 ≠ [] && (entry.1 || spread.getLast?.getD false)]) [false]
  if last then spread else (reached.zip spread).map fun entry => entry.1 || entry.2

def globMatches (elements segments : List Text) : Bool :=
  let reached := elements.zipIdx.foldl (fun reached entry =>
    if entry.1 = globstarElement then globstar reached segments (entry.2 = elements.length - 1)
    else globStep reached segments entry.1) (true :: segments.map fun _ => false)
  reached[segments.length]?.getD false

def inBoundary (path : Text) (globs : List Text) : Bool :=
  globs.any fun glob => globMatches (glob.splitOn '/') (path.splitOn '/')

/-! ## New hits -/

def moduleUnit : Text := "<module>".toList

/-- A rule, the path and the qualified name of the unit that holds the hit, and the hit's text. -/
abbrev HitKey : Type := Text × Text × Text × Text

def hitKey (hit : Hit) (owner : Option (Text × Text)) (path : Text) : HitKey :=
  let (place, unit) := owner.getD (path, moduleUnit)
  (hit.rule.id, place, unit, hit.capture)

/-- One hit of a new text: the unit that holds it, and the old identity of that unit. -/
structure NewHit where
  path : Text
  hit : Hit
  own : Option Metrics.Unit
  owner : Option UnitRef
deriving DecidableEq, Repr

namespace NewHit

variable (found : NewHit)

def key : HitKey :=
  hitKey found.hit (found.owner.map fun unit => (unit.path, unit.unit.qualname)) found.path

def finding : PairFinding :=
  let unit := (found.owner.map (·.unit.qualname)).getD moduleUnit
  let rule := found.hit.rule
  let capture := found.hit.capture
  { finding :=
      { check := contractDriftName
        severity := match rule.severity with
          | .warning => .warning
          | .advisory => .advisory
        message := unit ++ ": ".toList ++ capture ++ " is new in a boundary module (".toList ++
          rule.id ++ "). ".toList ++ rule.message
        path := found.path
        line := found.hit.line
        evidence := "rule ".toList ++ rule.id ++ "; unit ".toList ++ unit ++ "; capture ".toList ++
          capture }
    detail := some (.drift { rule := rule.id, unit, capture }) }

end NewHit

/-- One contract hit of a new text. -/
structure HitState where
  path : Text
  rule : Text
  unit : Text
  capture : Text
deriving DecidableEq, Repr

def NewHit.state (found : NewHit) : HitState where
  path := found.path
  rule := found.hit.rule.id
  unit := (found.own.map Metrics.Unit.qualname).getD moduleUnit
  capture := found.hit.capture

/-- The units that the new units of a run were, by file and start. -/
def identity (run : List Paired) : Nat × Nat → Option UnitRef :=
  filled (run.map fun paired =>
    ((paired.new.file, paired.new.unit.startByte), paired.old.getD paired.new))

namespace Engine

variable (engine : Engine)

/-- The rules come from the tree's own language, so the query never meets a tree of another one. -/
def sideHits (measured : List (Sides Parsed)) (side : Measured Parsed) : List Hit :=
  let language := side.parsed.language
  if language ∈ measured.map Sides.language then
    engine.hits (engine.compile language) side.parsed side.units
  else []

/-- The keys of the hits of the old texts. -/
def oldKeys (measured : List (Sides Parsed)) : List HitKey :=
  measured.flatMap fun sides =>
    match sides.old with
    | none => []
    | some old => (engine.sideHits measured old).map fun hit =>
      let owner := (hit.unit.bind (old.units[·]?)).map fun unit => (sides.path, unit.qualname)
      hitKey hit owner sides.path

/-- The hits of the new texts. A new unit that the matching paired keeps its old identity, so a
rename or a move to another file of the run moves no hit. -/
def newTextHits (measured : List (Sides Parsed)) (run : List Paired) : List NewHit :=
  measured.zipIdx.flatMap fun entry =>
    match entry.1.new with
    | none => []
    | some new => (engine.sideHits measured new).map fun hit =>
      let own := hit.unit.bind (new.units[·]?)
      { path := entry.1.path
        hit
        own
        owner := own.bind fun unit => identity run (entry.2, unit.startByte) }

/-- The hits of the new texts that no hit of the old ones carries over to, and the state of all. -/
def newHits (measured : List (Sides Parsed)) (run : List Paired) : List NewHit × List HitState :=
  let found := engine.newTextHits measured run
  let carried := fun key => (engine.oldKeys measured).count key
  (surplus NewHit.key carried found,
    (found.map NewHit.state).insertionSort fun x y => x.path ≤ y.path)

end Engine

/-! ## The check -/

/-- The findings, and every contract hit in the new texts when some file was measured. -/
structure Outcome where
  findings : List PairFinding
  contractKeys : Option (List HitState)
deriving DecidableEq, Repr

def configFilename : Text := ".agentless-mcp.json".toList

def noBoundaryRows (pairs : List Pair) : List PairFinding :=
  if pairs.isEmpty then []
  else [notChecked [] ("not checked: contract_drift has no boundary modules to check. ".toList ++
    "Set boundary_globs in ".toList ++ configFilename ++
    " to the globs of the modules that parse foreign data.".toList)
    "boundary_globs is empty".toList (some .noBoundaryGlobs)]

def noRulesRow (path : Text) (language : Language) : PairFinding :=
  notChecked path ("not checked: contract_drift has no rules for ".toList ++ language.name ++
    ", so it did not check ".toList ++ path ++ ".".toList) language.name
    (some (.noRulesForLanguage language))

namespace Engine

variable (engine : Engine)

/-- The check reads the pair: its language has rules, and its path is a boundary module. -/
def Admits (globs : List Text) (pair : Pair) : Prop :=
  ∃ language, pair.language = some language ∧ inBoundary pair.path globs = true ∧
    engine.rulesFor language ≠ []

instance (globs : List Text) (pair : Pair) : Decidable (engine.Admits globs pair) :=
  match h : pair.language with
  | none => isFalse fun ⟨language, hlanguage, _⟩ => by
    rw [h] at hlanguage
    cases hlanguage
  | some language =>
    decidable_of_iff (inBoundary pair.path globs = true ∧ engine.rulesFor language ≠ []) (by
      unfold Admits
      rw [h]
      simp)

def noRulesRows (globs : List Text) (pairs : List Pair) : List PairFinding :=
  pairs.filterMap fun pair => do
    let language ← pair.language
    if inBoundary pair.path globs = true ∧ engine.rulesFor language = [] ∧ pair.new.isSome then
      some (noRulesRow pair.path language)
    else none

/-- The sides that the check compares, and the rows for what it does not check. -/
def compared (pairs : List Pair) (globs : List Text) :
    Except Error (List (Sides Parsed) × List PairFinding) := do
  let (measured, gaps) ← eachPair (pairs.filter fun pair => engine.Admits globs pair)
  return (measured, engine.noRulesRows globs pairs ++ gaps)

def contractDrift (pairs : List Pair) (globs : List Text) : Except Error Outcome := do
  if globs.isEmpty then
    return { findings := noBoundaryRows pairs, contractKeys := none }
  else
    let (measured, rows) ← engine.compared pairs globs
    let run := matchRun (fileUnits measured)
    let (found, keys) := engine.newHits measured run
    return {
      findings := sorted (rows ++ found.map NewHit.finding)
      contractKeys := if measured.isEmpty then none else some keys }

end Engine

end Agentless.Checks
