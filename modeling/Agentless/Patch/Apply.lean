import Agentless.Library.Boundary
import Agentless.Patch.Unidiff

/-!
# Applying edits to file texts in memory

The two matching rules of the edit format, elisions and whole lines, and the loop that applies
each edit to the text that the edits before it left.
-/

namespace Agentless.Patch

open Text

/-! ## Elisions and whole lines -/

def elision : Text := "...".toList

def elisionPrefix : Text := "...\n".toList

/-- The two sides of an edit after its elisions are expanded. -/
structure Elided where
  search : Text
  replace : Text
deriving DecidableEq, Repr

/-- The side without a leading elision line, when a text follows that line. -/
def withoutPrefix (side : Text) : Text :=
  match stripPrefix elisionPrefix side with
  | some rest => if rest ≠ [] then rest else side
  | none => side

/-- The first unindented line that occurs exactly once in the whole file. -/
def findAnchor (text : Text) : Option Text :=
  (splitLines text).find? fun line =>
    line.head?.any (fun c => !isSpace c) && (splitLines text).count line = 1

def resolveElisions (search replace text : Text) : Except Text Elided :=
  let replace := withoutPrefix replace
  if search = elision then
    if replace.head?.all isSpace then
      .error "elided search block needs a replacement whose first line starts at column 1".toList
    else
      match findAnchor text with
      | none =>
        .error "elided search block has no unique unindented anchor line in scope".toList
      | some anchor => .ok ⟨anchor, replace ++ "\n\n".toList ++ anchor⟩
  else .ok ⟨withoutPrefix search, replace⟩

/-- Line breaks around the text, so that a match covers whole lines only. -/
def pad (text : Text) : Text := '\n' :: (text ++ ['\n'])

/-- Each offset in the padded `haystack` where the padded `block` starts, overlapping ones
included. -/
def wholeLineStarts (haystack block : Text) : List Nat := offsets (pad block) haystack 0

def lineOf (padded : Text) (offset : Nat) : Nat := (padded.take offset).count '\n' + 1

/-! ## One edit -/

inductive EditStatus where
  | applied | notFound | ambiguous | noSuchFile | unreadable | noAnchor
deriving DecidableEq, Repr

structure EditOutcome where
  edit : Edit
  status : EditStatus
  reason : Text
  found : Nat
deriving DecidableEq, Repr

inductive Placed where
  | changed (reason text : Text)
  | refused (status : EditStatus) (reason : Text) (found : Nat)
deriving DecidableEq, Repr

section Apply

variable (quoted : Text → Text)

/-- A bare elision names no place, so the line that the insert went above is reported. -/
def placement (edit : Edit) (search padded : Text) (at_ : Nat) : Text :=
  if edit.search ≠ elision then []
  else "inserted above line ".toList ++ shownNumber (lineOf padded at_) ++ ": ".toList ++
    quoted search

/-- The padded text with the block at `at_` replaced, and its line breaks taken off again. -/
def spliced (padded search replace : Text) (at_ : Nat) : Text :=
  -- the match covers the line break before the search and the one after it
  let stop := at_ + search.length + 2
  let updated := padded.take at_ ++ pad replace ++ padded.drop stop
  slice updated 1 (updated.length - 1)

/-- One edit against the current text. -/
def placed (edit : Edit) (content : Text) : Placed :=
  if edit.search = [] then
    .refused .noAnchor (edit.path ++
      ": the SEARCH side is empty, which anchors nowhere in a file that already exists".toList) 0
  else
    match resolveElisions edit.search edit.replace content with
    | .error reason => .refused .noAnchor reason 0
    | .ok ⟨search, replace⟩ =>
      let padded := pad content
      match wholeLineStarts padded search with
      | [] => .refused .notFound "search text not found".toList 0
      | [at_] =>
        .changed (placement quoted edit search padded at_) (spliced padded search replace at_)
      | starts => .refused .ambiguous ("search text ambiguous (".toList ++
          shownNumber starts.length ++ " matches)".toList) starts.length

/-! ## All edits -/

/-- One file's text before the edits, and as the edits so far left it. -/
structure FileState where
  path : Text
  original : Option Text
  content : Text
deriving DecidableEq, Repr

namespace FileState

def new (path : Text) (original : Option Text) : FileState := ⟨path, original, original.getD []⟩

/-- The edit's outcome, and the file's new text when the edit applied. -/
def apply (file : FileState) (edit : Edit) : EditOutcome × Option Text :=
  match file.original with
  | none => (⟨edit, .noSuchFile, "no such file in this patch's scope: ".toList ++ edit.path, 0⟩, none)
  | some _ =>
    match placed quoted edit file.content with
    | .changed reason text => (⟨edit, .applied, reason, 1⟩, some text)
    | .refused status reason found => (⟨edit, status, reason, found⟩, none)

/-- The file with its new text, when there is one. -/
def write (file : FileState) (text : Option Text) : FileState :=
  { file with content := text.getD file.content }

def changed (file : FileState) : Option (Text × Text) :=
  match file.original with
  | none => none
  | some original => if original ≠ file.content then some (file.path, file.content) else none

end FileState

/-- The files that edits have named, in the order of each file's first edit, and the outcome of
each edit. -/
structure Applying where
  files : List FileState := []
  outcomes : List EditOutcome := []
deriving DecidableEq, Repr

/-- The files with a state for `path`. -/
def withFile (files : List FileState) (path : Text) (original : Option Text) : List FileState :=
  if files.any (fun file => file.path = path) then files
  else files ++ [FileState.new path original]

def Applying.step (contents : Text → Option Text) (state : Applying) (edit : Edit) : Applying :=
  let files := withFile state.files edit.path (contents edit.path)
  match files.find? (fun file => file.path = edit.path) with
  -- the file is there: it was found or added above
  | none => state
  | some file =>
    let (outcome, text) := file.apply quoted edit
    { files := files.map fun other =>
        if other.path = edit.path then other.write text else other
      outcomes := state.outcomes ++ [outcome] }

/-- The outcome of every edit in order, and the new text of each file that an edit changed. -/
structure ApplyResult where
  outcomes : List EditOutcome
  newContents : List (Text × Text)
deriving DecidableEq, Repr

/-- Applies `edits` to the texts in `contents`. Each edit matches against the whole file as the
edits before it to that file left it. -/
def applyEdits (edits : List Edit) (contents : Text → Option Text) : ApplyResult :=
  let state := edits.foldl (Applying.step quoted contents) {}
  ⟨state.outcomes, state.files.filterMap FileState.changed⟩

end Apply

end Agentless.Patch
