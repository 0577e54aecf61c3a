import Agentless.Facts.Values
import Agentless.Text.Word

/-!
# Skeletons

A skeleton drops and replaces lines of a source: function bodies become a sentinel, comments go, and
docstrings shrink. The rules write to one plan, line by line, and an elided body claims its lines.
-/

namespace Agentless.Facts

open Agentless.Text

/-- An elided body: its lines and what they keep. -/
structure Elision where
  first : Nat
  last : Nat
  kept : List (Nat × Text)
  inside : ∀ entry ∈ kept, first ≤ entry.1 ∧ entry.1 ≤ last

/-- A doc comment: its kind, its marker, a block comment's closing marker, the first line of its
text, and whether it documents code. -/
structure DocComment where
  kind : Text
  marker : Text
  closer : Option Text
  text : Text
  attached : Bool
deriving DecidableEq, Repr

/-- Which lines to drop and which to replace, by 1-based line. An elided body owns its lines, and
nothing is to write inside them afterwards. -/
structure Plan where
  dropped : Nat → Bool
  replaced : Nat → Option Text
  owned : Nat → Bool
  /-- A line of a run of doc comment lines: the run's kind, and whether the run is settled. -/
  docRuns : Nat → Option (Text × Bool)

namespace Plan

def new : Plan where
  dropped _ := false
  replaced _ := none
  owned _ := false
  docRuns _ := none

variable (plan : Plan)

def docRunKind (line : Nat) : Option Text := (plan.docRuns line).map Prod.fst

def dropRange (first last : Nat) : Plan :=
  { plan with dropped := fun line => (first ≤ line && line ≤ last) || plan.dropped line }

/-- Show the text on the line. -/
def write (line : Nat) (text : Text) : Plan :=
  { plan with
    dropped := Function.update plan.dropped line false
    replaced := Function.update plan.replaced line (some text) }

def replace (line : Nat) (text : Text) : Plan :=
  if plan.owned line then plan else plan.write line text

/-- A line goes on with the run on the line before, else it opens one, and a run above no code is
settled at once. A run keeps its first line that holds text. -/
def runLine (line : Nat) (doc : DocComment) (kept : Text) : Plan :=
  let settled := match plan.docRuns (line - 1) with
    | some (kind, settled) => if kind = doc.kind then settled else !doc.attached
    | none => !doc.attached
  let hasText := doc.text ≠ []
  let plan := { plan with
    docRuns := Function.update plan.docRuns line (some (doc.kind, settled || hasText)) }
  if hasText && !settled then plan.replace line kept else plan

/-- Drop the body's lines, write what it keeps, and claim the range. -/
def elide (elision : Elision) : Plan :=
  let plan := elision.kept.foldl (fun plan entry => plan.write entry.1 entry.2)
    (plan.dropRange elision.first elision.last)
  { plan with
    owned := fun line => (elision.first ≤ line && line ≤ elision.last) || plan.owned line }

end Plan

/-! ## The operations of the rules -/

/-- One operation on a plan. A body whose first line is owned is left alone by the rule that would
elide it. -/
inductive Op where
  | elide (elision : Elision)
  | dropRange (first last : Nat)
  | replace (line : Nat) (text : Text)
  | runLine (line : Nat) (doc : DocComment) (kept : Text)

def Plan.step (plan : Plan) : Op → Plan
  | .elide elision => if plan.owned elision.first then plan else plan.elide elision
  | .dropRange first last => plan.dropRange first last
  | .replace line text => plan.replace line text
  | .runLine line doc kept => plan.runLine line doc kept

def Plan.run (ops : List Op) : Plan := ops.foldl Plan.step Plan.new

def sentinel : Text := "...".toList

/-- A docstring of a body, on one line. -/
structure Docstring where
  first : Nat
  last : Nat
  oneLine : Text

/-- What the rule for a function reads of its body: its rows, its first line up to it and from it on,
and the code after it on its last line. -/
structure Body where
  first : Nat
  last : Nat
  head : Text
  rest : Text
  closingTail : Text
  docstring : Option Docstring
  ordered : first ≤ last
  inside : ∀ found ∈ docstring, first ≤ found.first ∧ found.first ≤ last

/-- The braces of a body around the sentinel. -/
def braced (tail : Text) : Text := "\x7b ".toList ++ sentinel ++ " \x7d".toList ++ tail

def keptDocstring (found : Docstring) (indent : Text) (last : Nat) : List (Nat × Text) :=
  (found.first, indent ++ found.oneLine) ::
    if found.last < last then [(last, indent ++ sentinel)] else []

namespace Body

variable (body : Body) (keepDocstring : Bool)

/-- What the body keeps. A body that opens on its signature's line keeps the signature and gets the
sentinel there; a brace on its own line keeps the braces around the sentinel. -/
def kept : List (Nat × Text) :=
  let line := body.head ++ body.rest
  let opensBrace := body.rest.head? = some '\x7b'
  let column := body.head.length
  if line.length - (line.dropWhile isSpace).length < column then
    let head := trimEnd body.head
    [(body.first, head ++ ' ' :: if opensBrace then braced body.closingTail else sentinel)]
  else
    let indent := List.replicate column ' '
    if opensBrace then [(body.first, indent ++ braced body.closingTail)]
    else
      match body.docstring.filter fun _ => keepDocstring with
      | some found => keptDocstring found indent body.last
      | none => [(body.first, indent ++ sentinel)]

theorem kept_inside : ∀ entry ∈ body.kept keepDocstring,
    body.first ≤ entry.1 ∧ entry.1 ≤ body.last := by
  have hfirst (text : Text) : ∀ entry ∈ [(body.first, text)],
      body.first ≤ entry.1 ∧ entry.1 ≤ body.last := by
    intro entry hentry
    obtain rfl := List.mem_singleton.mp hentry
    exact ⟨Nat.le_refl _, body.ordered⟩
  unfold kept
  dsimp only
  split
  · exact hfirst _
  · split
    · exact hfirst _
    · split
      next found hfound =>
        have hinside := body.inside found (Option.filter_eq_some_iff.mp hfound).1
        intro entry hentry
        rcases List.mem_cons.mp hentry with rfl | hentry
        · exact hinside
        · split_ifs at hentry
          · obtain rfl := List.mem_singleton.mp hentry
            exact ⟨body.ordered, Nat.le_refl _⟩
          · cases hentry
      next => exact hfirst _

def elision : Elision where
  first := body.first
  last := body.last
  kept := body.kept keepDocstring
  inside := body.kept_inside keepDocstring

end Body

/-- What the rule for a comment reads: its rows, the text before it on its first line and after it on
its last, whether it is a part of another comment, and the doc comment it is after a run of a
kind. -/
structure Comment where
  first : Nat
  last : Nat
  head : Text
  tail : Text
  part : Bool
  doc : Option Text → Option DocComment

/-- A string statement that opens a module or a class, with the text before it on its first line. -/
structure LeadingDocstring where
  first : Nat
  last : Nat
  head : Text
  oneLine : Text

/-- A node that a rule is about. -/
inductive PlanNode where
  | function (body : Option Body)
  | comment (comment : Comment)
  | docstring (docstring : LeadingDocstring)

/-- A doc comment that documents code keeps its marker and the first line of its text. -/
def docCommentOps (plan : Plan) (comment : Comment) : List Op :=
  match comment.doc (plan.docRunKind (comment.first - 1)) with
  | none => []
  | some doc =>
    let marked := comment.head ++ doc.marker ++ ' ' :: doc.text
    match doc.closer with
    | some closer => if doc.attached ∧ doc.text ≠ [] then
        [.replace comment.first (marked ++ ' ' :: closer)] else []
    | none => [.runLine comment.first doc marked]

/-- A comment goes; the code that shares its first or last line stays, without the space it
leaves. -/
def commentOps (plan : Plan) (keepDocstring : Bool) (comment : Comment) : List Op :=
  if comment.part then []
  else if strip comment.head = [] ∧ strip comment.tail = [] then
    .dropRange comment.first comment.last ::
      if keepDocstring then docCommentOps plan comment else []
  else
    let kept := if strip comment.head = [] then comment.head ++ comment.tail.dropWhile isSpace
      else trimEnd comment.head ++ comment.tail
    [.dropRange (comment.first + 1) comment.last, .replace comment.first (trimEnd kept)]

def docstringOps (keepDocstring : Bool) (docstring : LeadingDocstring) : List Op :=
  .dropRange docstring.first docstring.last ::
    if keepDocstring then
      [.replace docstring.first
        (List.replicate docstring.head.length ' ' ++ docstring.oneLine)]
    else []

/-- The operations that the rule of a node makes. -/
def PlanNode.ops (plan : Plan) (keepDocstring : Bool) : PlanNode → List Op
  | .function none => []
  | .function (some body) => [.elide (body.elision keepDocstring)]
  | .comment found => commentOps plan keepDocstring found
  | .docstring found => docstringOps keepDocstring found

/-- The operations of the nodes in document order, after those made so far. -/
def planOps (keepDocstring : Bool) (ops : List Op) (nodes : List PlanNode) : List Op :=
  nodes.foldl (fun ops node => ops ++ node.ops (Plan.run ops) keepDocstring) ops

/-! ## Rendering -/

/-- What the plan shows for a line of the source. -/
def Plan.shown (plan : Plan) (lines : List Text) (line : Nat) : Option Text :=
  if plan.dropped line then none else some ((plan.replaced line).getD (lines.getD (line - 1) []))

structure Rendering where
  rendered : List Text
  previousBlank : Bool
  contentEnd : Nat

def Rendering.add (numberLines : Bool) (state : Rendering) (entry : Nat × Text) : Rendering :=
  let mark := if numberLines then linePrefix (min entry.1 maxLine) else []
  if strip entry.2 = [] then
    if state.previousBlank then state
    else { state with rendered := state.rendered ++ [mark], previousBlank := true }
  else
    { rendered := state.rendered ++ [mark ++ entry.2]
      previousBlank := false
      contentEnd := state.rendered.length + 1 }

/-- The lines that survive, with runs of blank lines collapsed to one, no leading blank, and no
trailing blank. -/
def render (lines : List Text) (plan : Plan) (numberLines : Bool) : Text :=
  let shown := (List.range' 1 lines.length).filterMap fun line =>
    (plan.shown lines line).map fun text => (line, text)
  let state := shown.foldl (Rendering.add numberLines)
    { rendered := [], previousBlank := true, contentEnd := 0 }
  match state.rendered.take state.contentEnd with
  | [] => []
  | rendered => joinLines rendered ++ ['\n']

/-- The skeleton of a source by its nodes in document order. -/
def skeletonize (lines : List Text) (nodes : List PlanNode) (docstrings numberLines : Bool) : Text :=
  render lines (Plan.run (planOps docstrings [] nodes)) numberLines

end Agentless.Facts
