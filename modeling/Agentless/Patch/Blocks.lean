import Agentless.Library.Find
import Agentless.Patch.Apply

/-!
# SEARCH/REPLACE blocks

A text is split at its closing markers, and each piece is read into an edit or a refusal. The lines
above the opening marker name the file; a block with no path of its own takes the last path seen.
-/

namespace Agentless.Patch.Blocks

open Text

def searchMarker : Text := "<<<<<<< SEARCH".toList
def divider : Text := "=======".toList
def replaceMarker : Text := ">>>>>>> REPLACE".toList
def beginPatchMarker : Text := "*** Begin Patch".toList

/-! ## The header of a block -/

section Header

-- The word class of the character tables, and Python's repr of a str.
variable (isWord : Char → Bool) (quoted : Text → Text)

def fence : Text := "```".toList
def maxPathWords : Nat := 3
def maxExtension : Nat := 12

/-- A line that ends on one of these is prose: sentence punctuation, or a closing delimiter. -/
def proseEnd : Text := ".,:;!?\"')]\x7d".toList

/-- A filename does not open with a delimiter, so a line that does is one this cannot read. -/
def pathStartRefused : Text := "\"'([\x7b".toList

inductive HeaderPath where
  | absent
  | named (path : Text)
  | unreadable (reason : Text)
deriving DecidableEq, Repr

inductive Shape where
  | path | prose | unreadable
deriving DecidableEq, Repr

/-- A letter, digit or number character: the word class without the underscore. -/
def isAlphanumeric (text : Text) : Bool := text ≠ [] && text.all fun c => c ≠ '_' && isWord c

def hasExtension (name : Text) : Bool :=
  match Find.rsplitOnce '.' name with
  | none => false
  | some (stem, suffix) => stem ≠ [] && isAlphanumeric isWord suffix && suffix.length ≤ maxExtension

/-- One word is a path unless its punctuation says prose. Several words are a path only within a few
words and with an extension on the last component. -/
def shape (candidate : Text) : Shape :=
  if candidate.head?.any (pathStartRefused.contains ·) then .unreadable
  else if candidate.getLast?.any (proseEnd.contains ·) then .prose
  else
    let words := (splitWhitespace candidate).length
    if words = 1 then .path
    else if maxPathWords < words || Find.contains "  ".toList candidate || candidate.contains '\t' then
      .prose
    else
      let name := (Find.rsplitOnce '/' candidate).elim candidate Prod.snd
      if hasExtension isWord name then .path else .prose

def unreadableReason (candidate : Text) : Text :=
  "the line above this block, ".toList ++ quoted candidate ++
    (", is neither a path nor a sentence, so which file this block edits is not stated; put the path " ++
      "on its own line above <<<<<<< SEARCH").toList

/-- The last path-shaped line wins: `lines` are those of the header from its end. -/
def filenameFrom : List Text → HeaderPath
  | [] => .absent
  | line :: lines =>
    let candidate := strip line
    if candidate = [] || fence.isPrefixOf candidate then filenameFrom lines
    else
      let stripped := strip (candidate.dropWhile (· = '#'))
      if stripped = [] then filenameFrom lines
      else match shape isWord stripped with
        | .path => .named stripped
        | .prose => filenameFrom lines
        | .unreadable => .unreadable (unreadableReason quoted stripped)

def filenameIn (header : Text) : HeaderPath :=
  filenameFrom isWord quoted (splitlines header false).reverse

end Header

/-! ## The body of a block -/

def isDivider (line : Text) : Bool := trimEnd line = divider

/-- A carriage return on the marker line or a divider means the patch text itself has CRLF ends. -/
def crlfReason (lines : List Text) : Option Text :=
  if (lines.take 1 ++ lines.filter isDivider).any (·.getLast? = some '\r') then
    some ("a structural line ends with a carriage return, so this patch text has CRLF line endings; " ++
      "convert it to LF and rerun").toList
  else none

def dividerReason (count : Nat) : Text :=
  if count = 0 then "block has no ======= divider between the search and replace sides".toList
  else "block has ".toList ++ shownNumber count ++ " ======= dividers; expected one".toList

/-- The marker line goes, and so does the line break before the closing marker. -/
def bodyLines (lines : List Text) : List Text :=
  if lines.tail.getLast? = some [] then lines.tail.dropLast else lines.tail

/-- The text after the opening marker, split at its divider into the search and replace sides. -/
def splitBody (body : Text) : Except Text (Text × Text) :=
  let lines := splitLines body
  match crlfReason lines with
  | some reason => .error reason
  | none =>
    if strip (lines.headD []) ≠ [] then
      .error "text follows the <<<<<<< SEARCH marker on its own line".toList
    else
      let lines := bodyLines lines
      match (List.range lines.length).filter fun at_ => lines[at_]?.any isDivider with
      | [at_] =>
        let search := joinLines (lines.take at_)
        let replace := joinLines (lines.drop (at_ + 1))
        if search = elision ∧ strip replace = elision then
          .error "both sides of this block are '...': there is nothing to write".toList
        else .ok (search, replace)
      | dividers => .error (dividerReason dividers.length)

/-! ## Blocks -/

section Blocks

variable (isWord : Char → Bool) (quoted : Text → Text)

def markerReason (count : Nat) : Text :=
  if count = 0 then "block has no <<<<<<< SEARCH marker".toList
  else "block has ".toList ++ shownNumber count ++ " <<<<<<< SEARCH markers; expected one".toList

def editOf (index : Nat) (path : Option Text) (bodies : List Text) : Except BlockError Edit :=
  match bodies with
  | [body] =>
    match path with
    | none => .error ⟨index, none,
        "block names no file: put the path on its own line above <<<<<<< SEARCH".toList⟩
    | some path =>
      match splitBody body with
      | .ok (search, replace) => .ok ⟨index, path, search, replace⟩
      | .error reason => .error ⟨index, some path, reason⟩
  | bodies => .error ⟨index, path, markerReason bodies.length⟩

/-- One block: the path that the next block inherits, and the edit or the refusal. -/
def readBlock (index : Nat) (segment : Text) (inherited : Option Text) :
    Option Text × Except BlockError Edit :=
  let parts := Find.splitAll searchMarker segment
  match filenameIn isWord quoted (parts.headD []) with
  | .unreadable reason => (inherited, .error ⟨index, inherited, reason⟩)
  | .named path => (some path, editOf index (some path) parts.tail)
  | .absent => (inherited, editOf index inherited parts.tail)

/-- The text after the last closing marker, refused when it opens a block. -/
def unterminated (index : Nat) (tail : Text) (current : Option Text) : Option BlockError :=
  let header := (Find.splitAll searchMarker tail).headD []
  if header.length = tail.length then none
  else
    let path := match filenameIn isWord quoted header with
      | .named path => some path
      | _ => current
    some ⟨index, path, "block is not terminated by >>>>>>> REPLACE (truncated output?)".toList⟩

def noBlocksReason (text : Text) : Text :=
  let reason := "no SEARCH/REPLACE blocks found: expected ".toList ++ searchMarker ++ ", ".toList ++
    divider ++ " and ".toList ++ replaceMarker ++ " markers".toList
  if Find.contains beginPatchMarker text then
    reason ++ "; this looks like ".toList ++ beginPatchMarker ++
      " text -- rewrite each hunk as a SEARCH/REPLACE block".toList
  else reason

/-- What was read so far: the path to inherit, the next index, and the edits and refusals. -/
structure Reading where
  current : Option Text := none
  index : Nat := 0
  parsed : ParseResult := ⟨[], []⟩

def Reading.add (reading : Reading) (segment : Text) : Reading :=
  let (path, block) := readBlock isWord quoted reading.index segment reading.current
  let parsed := match block with
    | .ok edit => { reading.parsed with edits := reading.parsed.edits ++ [edit] }
    | .error error => { reading.parsed with errors := reading.parsed.errors ++ [error] }
  ⟨path, reading.index + 1, parsed⟩

/-- Reads a text as SEARCH/REPLACE blocks. A text with no block is a refusal. -/
def parseBlocks (text : Text) : ParseResult :=
  let segments := Find.splitAll replaceMarker text
  let tail := segments.getLastD []
  let reading := segments.dropLast.foldl (Reading.add isWord quoted) {}
  let errors := reading.parsed.errors ++
    (unterminated isWord quoted reading.index tail reading.current).toList
  if reading.parsed.edits = [] ∧ errors = [] then ⟨[], [⟨0, none, noBlocksReason text⟩]⟩
  else ⟨reading.parsed.edits, errors⟩

end Blocks

end Agentless.Patch.Blocks
