import Agentless.Library.Lines
import Agentless.Text.Word

/-!
# Reading a unified diff as one edit per hunk

The header lines of a file section, its hunks, each consumed by the line counts its `@@` header
declares, and the loop over the sections. The lines of a hunk's two sides are kept until the
edit is made of them.
-/

namespace Agentless.Patch

open Text

structure Edit where
  index : Nat
  path : Text
  search : Text
  replace : Text
deriving DecidableEq, Repr

structure BlockError where
  index : Nat
  path : Option Text
  reason : Text
deriving DecidableEq, Repr

structure DiffNote where
  path : Text
  reason : Text
deriving DecidableEq, Repr

/-- One hunk that was read: the lines of its pre-image and of its post-image, and whether its
section creates the file. -/
structure Hunk where
  index : Nat
  path : Text
  pre : List Text
  post : List Text
  newFile : Bool
deriving DecidableEq, Repr

def Hunk.edit (hunk : Hunk) : Edit := ⟨hunk.index, hunk.path, joinLines hunk.pre, joinLines hunk.post⟩

def diffGit : Text := "diff --git ".toList
def combined : List Text := ["diff --cc ".toList, "diff --combined ".toList]
def oldOpener : Text := "--- ".toList
def newOpener : Text := "+++ ".toList
def devNull : Text := "/dev/null".toList

/-- A line number or a count of a hunk header as a machine word, or `none` when it is larger. -/
def toUsize (n : Nat) : Option Nat := if n < 2 ^ 64 then some n else none

/-- The number that the decimal digits at the start of `text` spell, and the text after them. -/
def leading (text : Text) : Option (Nat × Text) :=
  let digits := text.takeWhile isDecimal
  if digits = [] then none
  else some ((digits.filterMap decimalValue).foldl (fun value digit => 10 * value + digit) 0,
    text.dropWhile isDecimal)

def opensSection (line : Text) : Bool :=
  diffGit.isPrefixOf line || (oldOpener.isPrefixOf line && oldOpener.length < line.length)

section Reader

-- Python's repr of a str, which the reasons show a line in.
variable (quoted : Text → Text)

def crlf (line : Text) : Option Text :=
  if line.getLast? = some '\r' then
    some ("a structural line ends with a carriage return, so this patch file has CRLF line endings: ".toList
      ++ quoted (trimEnd line) ++ "; convert it to LF and rerun".toList)
  else none

/-! ## Hunk headers -/

/-- What one `@@ -start,count +start,count @@` header declares. -/
structure Counts where
  oldStart : Nat
  oldCount : Nat
  newCount : Nat
deriving DecidableEq, Repr

/-- An optional `,count`: a comma with no digits after it fails the whole header. -/
def count (rest : Text) : Option (Nat × Text) :=
  match stripPrefix [','] rest with
  | some digits => leading digits
  | none => some (1, rest)

def parseHeader (header : Text) : Option Counts := do
  let rest ← stripPrefix "@@ -".toList header
  let (oldStart, rest) ← leading rest
  let (oldCount, rest) ← count rest
  let (_, rest) ← leading (← stripPrefix " +".toList rest)
  let (newCount, rest) ← count rest
  if " @@".toList.isPrefixOf rest then some ⟨oldStart, oldCount, newCount⟩ else none

/-- The file that one section's hunks change, and whether the diff creates it. -/
structure Target where
  path : Text
  newFile : Bool
deriving DecidableEq, Repr

def shownNumber (n : Nat) : Text := Nat.toDigits 10 n

def hunkCounts (header : Text) (target : Target) (floor : Nat) : Except Text Counts :=
  match crlf quoted header with
  | some reason => .error reason
  | none =>
    match parseHeader header with
    | none => .error (target.path ++
        " has a hunk header that is not '@@ -old,count +new,count @@': ".toList ++ quoted header)
    | some counts =>
      let shown := strip header
      if counts.oldCount = 0 ∧ counts.newCount = 0 then
        .error (target.path ++ " has a hunk that declares no lines on either side (".toList ++ shown ++
          "), so it states no change; git does not emit one, and the empty edit it would yield reads as a change that was checked and found clean".toList)
      else if counts.oldCount = 0 ∧ target.newFile = false then
        .error (target.path ++ " has a hunk with an empty pre-image (".toList ++ shown ++
          ") into a file that already exists, so the hunk anchors to nothing; a zero-context hunk is the usual cause, so regenerate the diff with context lines (drop -U0)".toList)
      else if counts.oldStart < floor then
        .error (target.path ++ " has hunks whose pre-image ranges overlap or run backwards: ".toList ++
          shown ++ " starts at line ".toList ++ shownNumber counts.oldStart ++
          ", which the hunk before it already covered; a file's hunks describe one state of it, so no edit list holds both".toList)
      else .ok counts

def countMismatch (path header : Text) : Text :=
  path ++ ": hunk ".toList ++ strip header ++
    " declares line counts its body does not match (truncated or hand-edited diff?)".toList

/-! ## Hunk bodies -/

def noNewline : Text := "\\ ".toList

/-- A bare empty line is context for an empty line: editors strip the single space. -/
def marked (line : Text) : Char × Text :=
  match line with
  | [] => (' ', [])
  | marker :: content => (marker, content)

/-- The lines one hunk body has taken on each side, against the counts its header declared. -/
structure Tally where
  oldCount : Nat
  newCount : Nat
  old : List Text := []
  new : List Text := []
deriving DecidableEq, Repr

namespace Tally

variable (tally : Tally)

/-- A count above every machine word never runs out. -/
def leftOf (count used : Nat) : Bool := (toUsize count).all (used < ·)

def leftOld : Bool := leftOf tally.oldCount tally.old.length
def leftNew : Bool := leftOf tally.newCount tally.new.length
def opened : Bool := tally.leftOld || tally.leftNew

/-- Whether a line with `marker` fits the counts, or `none` for a marker no body line has. -/
def fits (marker : Char) : Option Bool :=
  if marker = ' ' then some (tally.leftOld && tally.leftNew)
  else if marker = '-' then some tally.leftOld
  else if marker = '+' then some tally.leftNew
  else none

def take (marker : Char) (content : Text) : Tally :=
  if marker = ' ' then { tally with old := tally.old ++ [content], new := tally.new ++ [content] }
  else if marker = '-' then { tally with old := tally.old ++ [content] }
  else { tally with new := tally.new ++ [content] }

def truncated (path header : Text) : Text :=
  path ++ ": hunk ".toList ++ strip header ++ " ends after part of its body, with ".toList ++
    shownNumber (tally.oldCount - tally.old.length) ++ " pre-image and ".toList ++
    shownNumber (tally.newCount - tally.new.length) ++
    " post-image line(s) still to come (truncated diff?)".toList

end Tally

/-- The tally of the body that starts with `rest`, at the line `next`, and the line after it. -/
def bodyFrom (path header : Text) (rest : List Text) (next : Nat) (tally : Tally) :
    Except Text (Tally × Nat) :=
  if tally.opened then
    match rest with
    | [] => .error (tally.truncated path header)
    | line :: rest =>
      -- the no-newline marker carries a fact that an edit has nowhere to hold
      if noNewline.isPrefixOf line then bodyFrom path header rest (next + 1) tally
      else
        match tally.fits (marked line).1 with
        | some true =>
          bodyFrom path header rest (next + 1) (tally.take (marked line).1 (marked line).2)
        | some false => .error (countMismatch path header)
        | none => .error (path ++ ": hunk ".toList ++ strip header ++
            " has a body line that is not ' ', '-', '+' or '\\': ".toList ++ quoted line)
  else .ok (tally, next)

/-- One hunk's two sides, and the first line after it. -/
structure Body where
  search : List Text
  replace : List Text
  next : Nat
deriving DecidableEq, Repr

def hunkBody (lines : List Text) (at_ : Nat) (counts : Counts) (path header : Text) :
    Except Text Body :=
  match bodyFrom quoted path header (lines.drop at_) at_ ⟨counts.oldCount, counts.newCount, [], []⟩ with
  | .error reason => .error reason
  | .ok (tally, next) =>
    let markers := ((lines.drop next).takeWhile (noNewline.isPrefixOf ·)).length
    .ok ⟨tally.old, tally.new, next + markers⟩

/-- The line after the hunk at `at_`, or `none` when its header or body does not read. -/
def endOfHunk (lines : List Text) (at_ : Nat) (header : Text) : Option Nat :=
  match parseHeader header with
  | none => none
  | some counts => (hunkBody quoted lines (at_ + 1) counts [] header).toOption.map (·.next)

theorem bodyFrom_next {path header : Text} {rest : List Text} {next next' : Nat}
    {tally tally' : Tally} (h : bodyFrom quoted path header rest next tally = .ok (tally', next')) :
    next ≤ next' ∧ next' ≤ next + rest.length := by
  fun_induction bodyFrom quoted path header rest next tally with
  | case1 => simp at h
  | case2 next tally hopen line rest hmarker ih =>
    have := ih h
    simp only [List.length_cons]
    omega
  | case3 next tally hopen line rest hmarker hfits ih =>
    have := ih h
    simp only [List.length_cons]
    omega
  | case4 => simp at h
  | case5 => simp at h
  | case6 => simp at h; omega

theorem hunkBody_next {lines : List Text} {at_ : Nat} {counts : Counts} {path header : Text}
    {body : Body} (h : hunkBody quoted lines at_ counts path header = .ok body) :
    at_ ≤ body.next := by
  unfold hunkBody at h
  cases hbody : bodyFrom quoted path header (lines.drop at_) at_
      ⟨counts.oldCount, counts.newCount, [], []⟩ with
  | error reason => simp [hbody] at h
  | ok found =>
    obtain ⟨tally, next⟩ := found
    simp only [hbody, Except.ok.injEq] at h
    subst h
    have := (bodyFrom_next quoted hbody).1
    dsimp only
    omega

/-! ## The hunks of one section -/

/-- `git format-patch` writes this before its version, after the last hunk. -/
def trailer : Text := "--".toList

/-- A hunk body line that no header declared. A blank line and `--` follow a correct hunk in real
output, so both read as the hunk's end. -/
def isStrayBody (line : Text) : Bool :=
  if line = [] ∨ trimEnd line = trailer then false
  else if "@@".toList.isPrefixOf line || opensSection line then false
  else line.head?.any fun c => c = ' ' ∨ c = '-' ∨ c = '+'

/-- Whether the section still holds hunk content that the hunk loop did not read. -/
def unreadContent (lines : List Text) (at_ stop : Nat) : Bool :=
  let rest := (lines.take stop).drop at_
  if rest.any (fun line => (parseHeader line).isSome) then true
  else (rest.find? fun line => line ≠ [] ∧ trimEnd line ≠ trailer).any isStrayBody

def opensHunk (line : Text) : Bool := "@@".toList.isPrefixOf line

/-- One hunk as an edit, the line after it, and the first pre-image line the next hunk may
claim. -/
def hunk (lines : List Text) (at_ : Nat) (header : Text) (target : Target) (index floor : Nat) :
    Except BlockError (Hunk × Nat × Nat) :=
  let refusal (reason : Text) : BlockError := ⟨index, some target.path, reason⟩
  match hunkCounts quoted header target floor with
  | .error reason => .error (refusal reason)
  | .ok counts =>
    match hunkBody quoted lines (at_ + 1) counts target.path header with
    | .error reason => .error (refusal reason)
    | .ok body =>
      if lines[body.next]?.any isStrayBody then .error (refusal (countMismatch target.path header))
      else .ok (⟨index, target.path, body.search, body.replace, target.newFile⟩, body.next,
        counts.oldStart + counts.oldCount)

theorem hunk_next {lines : List Text} {at_ : Nat} {header : Text} {target : Target}
    {index floor : Nat} {found : Hunk × Nat × Nat}
    (h : hunk quoted lines at_ header target index floor = .ok found) : at_ < found.2.1 := by
  unfold hunk at h
  dsimp only at h
  split at h
  · simp at h
  · split at h
    · simp at h
    · rename_i counts _ body hbody
      split at h
      · simp at h
      · have := hunkBody_next quoted hbody
        simp only [Except.ok.injEq] at h
        subst h
        dsimp only
        omega

/-- One file's hunks, refusals and notes, its last ordinal, and where the next section starts. -/
structure Section where
  hunks : List Hunk := []
  errors : List BlockError := []
  notes : List DiffNote := []
  ordinal : Nat
  next : Nat
deriving DecidableEq, Repr

def sectionError (path : Option Text) (ordinal at_ : Nat) (reason : Text) : Section :=
  { errors := [⟨ordinal, path, reason⟩], ordinal := ordinal + 1, next := at_ }

def sectionNote (path : Text) (ordinal at_ : Nat) (reason : Text) : Section :=
  { notes := [⟨path, reason⟩], ordinal := ordinal, next := at_ }

def refusedSection (hunks : List Hunk) (refusal : BlockError) (resume : Nat) : Section :=
  { hunks := hunks, errors := [refusal], ordinal := refusal.index + 1, next := resume }

/-- The section when no hunk opens at `next`. The last header read is the one whose counts ended
the hunk before its body did. -/
def endHunks (lines : List Text) (target : Target) (resume next index : Nat) (header : Text)
    (read : List Hunk) : Section :=
  if unreadContent lines next resume then
    refusedSection read ⟨index, some target.path, countMismatch target.path header⟩ resume
  else { hunks := read, ordinal := index, next := next }

/-- The hunks from line `next` on, after those read. -/
def hunksFrom (lines : List Text) (target : Target) (resume next index floor : Nat) (header : Text)
    (read : List Hunk) : Section :=
  match hline : lines[next]? with
  | none => endHunks lines target resume next index header read
  | some line =>
    if opensHunk line then
      match hhunk : hunk quoted lines next line target index floor with
      | .error refusal => refusedSection read refusal resume
      | .ok (found, after, raised) =>
        hunksFrom lines target resume after (index + 1) raised line (read ++ [found])
    else endHunks lines target resume next index header read
termination_by lines.length - next
decreasing_by
  have := hunk_next quoted hhunk
  have := (List.getElem?_eq_some_iff.mp hline).1
  dsimp only at *
  omega

/-- Reads every hunk of one section, or up to the first refusal. -/
def hunks (lines : List Text) (at_ : Nat) (target : Target) (ordinal resume : Nat) : Section :=
  match lines[at_]? with
  | some header =>
    if opensHunk header then hunksFrom quoted lines target resume at_ ordinal 0 header []
    else withoutHunks
  | none => withoutHunks
where
  withoutHunks : Section :=
    sectionError (some target.path) ordinal resume (target.path ++
      " has a file header but no hunks, so there is no change to read".toList)

/-! ## Section headers -/

def binaryLiteral : Text := "GIT binary patch".toList
def binaryText : Text := "Binary files ".toList
def renameHeaders : List Text :=
  ["rename from ".toList, "rename to ".toList, "copy from ".toList, "copy to ".toList]
def ignoredHeaders : List Text :=
  ["index ".toList, "similarity index ".toList, "dissimilarity index ".toList, "old mode ".toList,
    "new mode ".toList, "new file mode ".toList, "deleted file mode ".toList]
def separator : Text := " b/".toList

/-- One section's header block. A `diff --git` section runs to the next `diff --git`, so its own
`---` line is inside it. -/
structure Headers where
  named : Option Text := none
  oldRaw : Option Text := none
  newRaw : Option Text := none
  renamed : Bool := false
  binary : Bool := false
  reason : Option Text := none
  next : Nat
  gitSection : Bool
deriving DecidableEq, Repr

inductive Stop where
  | crlf (reason : Text)
  | binary
  | unrecognised (reason : Text)
deriving DecidableEq, Repr

inductive HeaderLine where
  | ended
  | pair (old new : Option Text)
  | rename
  | ignored
  | stop (stop : Stop)
deriving DecidableEq, Repr

/-- Only the first header of each kind is read: a second `---` belongs to the next section. -/
def pathLine (line : Text) (oldRaw newRaw : Option Text) : Option (Option Text × Option Text) :=
  match oldRaw, stripPrefix oldOpener line with
  | none, some old => some (some old, newRaw)
  | _, _ =>
    match newRaw, stripPrefix newOpener line with
    | none, some new => some (oldRaw, some new)
    | _, _ => none

def headerLine (line : Text) (oldRaw newRaw : Option Text) : HeaderLine :=
  if opensHunk line then .ended
  else
    match pathLine line oldRaw newRaw with
    | some (old, new) =>
      match crlf quoted line with
      | some reason => .stop (.crlf reason)
      | none => .pair old new
    | none =>
      if line = binaryLiteral || binaryText.isPrefixOf line then .stop .binary
      else if renameHeaders.any (·.isPrefixOf line) then .rename
      else if ignoredHeaders.any (·.isPrefixOf line) then .ignored
      -- a mode-only or rename-only entry ends without hunks, a binary payload in a blank
      else if line = [] || opensSection line then .ended
      else .stop (.unrecognised ("unrecognised header line in this file's diff: ".toList ++
        quoted line))

def stopped (read : Headers) : Stop → Headers
  | .crlf reason =>
    { read with
      oldRaw := none
      newRaw := none
      renamed := false
      reason := some reason
      next := read.next + 1 }
  | .binary => { read with binary := true, next := read.next + 1 }
  | .unrecognised reason => { read with reason := some reason, next := read.next + 1 }

/-- The header block over the lines `rest`, after what was read. -/
def headersFrom (rest : List Text) (read : Headers) : Headers :=
  match rest with
  | [] => read
  | line :: rest =>
    match headerLine quoted line read.oldRaw read.newRaw with
    | .ended => read
    | .pair old new =>
      headersFrom rest { read with oldRaw := old, newRaw := new, next := read.next + 1 }
    | .rename => headersFrom rest { read with renamed := true, next := read.next + 1 }
    | .ignored => headersFrom rest { read with next := read.next + 1 }
    | .stop stop => stopped read stop

/-- Each offset in `text` where `needle` occurs, not overlapping, as `match_indices` gives them. -/
def matchIndices (needle text : Text) : List Nat :=
  go text 0 0
where
  go : Text → Nat → Nat → List Nat
    | [], _, _ => []
    | c :: rest, offset, skip =>
      if skip = 0 ∧ needle.isPrefixOf (c :: rest) then
        offset :: go rest (offset + 1) (needle.length - 1)
      else go rest (offset + 1) (skip - 1)

/-- At most one split agrees: two would each spell the line "a/T b/T" with a T of another
length. -/
def agreed (rest : Text) (splits : List Nat) : Option Text :=
  splits.findSome? fun split =>
    let tail := rest.drop (split + separator.length)
    if tail ≠ [] ∧ stripPrefix "a/".toList (rest.take split) = some tail then some tail else none

/-- The path that a plain `diff --git a/x b/x` line names. -/
def diffGitPath (line : Text) : Option Text :=
  let rest := line.drop diffGit.length
  if rest.head? = some '"' then none
  else
    let tail := match matchIndices separator rest with
      | [] => none
      | [one] => some (rest.drop (one + separator.length))
      | splits => agreed rest splits
    tail.filter (· ≠ [])

def opening (line : Text) (at_ : Nat) : Headers :=
  if diffGit.isPrefixOf line then
    let reason := crlf quoted line
    { reason := reason
      named := if reason.isNone then diffGitPath line else none
      next := at_ + 1
      gitSection := true }
  else { next := at_, gitSection := false }

/-- Scans one section's header lines from `at_`, and stops at its first hunk. -/
def headers (lines : List Text) (at_ : Nat) (line : Text) : Headers :=
  let read := opening quoted line at_
  if read.reason.isSome then read else headersFrom quoted (lines.drop read.next) read

/-! ## Sections -/

theorem endOfHunk_next {lines : List Text} {at_ stop : Nat} {header : Text}
    (h : endOfHunk quoted lines at_ header = some stop) : at_ < stop := by
  unfold endOfHunk at h
  split at h
  · simp at h
  · rename_i counts _
    cases hbody : hunkBody quoted lines (at_ + 1) counts [] header with
    | error reason => simp [hbody, Except.toOption] at h
    | ok body =>
      have hnext := hunkBody_next quoted hbody
      obtain rfl : body.next = stop := by simpa [hbody, Except.toOption] using h
      omega

/-- Where the section that holds `index` ends. Hunks are stepped over by their counts, so a body
line that reads like a header stays inside. -/
def skipToNextSection (lines : List Text) (index : Nat) (gitOnly : Bool) : Nat :=
  match hline : lines[index]? with
  | none => lines.length
  | some line =>
    if diffGit.isPrefixOf line || (!gitOnly && opensSection line) then index
    else if opensHunk line then
      match hend : endOfHunk quoted lines index line with
      | some stop => skipToNextSection lines stop gitOnly
      | none => skipToNextSection lines (index + 1) gitOnly
    else skipToNextSection lines (index + 1) gitOnly
termination_by lines.length - index
decreasing_by
  · have := endOfHunk_next quoted hend
    have := (List.getElem?_eq_some_iff.mp hline).1
    omega
  all_goals
    have := (List.getElem?_eq_some_iff.mp hline).1
    omega

/-- One side of a `---`/`+++` pair: its path (`none` for /dev/null), or why it has none, and its
text without the timestamp column. -/
structure Side where
  path : Option Text
  reason : Option Text
  raw : Text
deriving DecidableEq, Repr

def side (raw opener : Text) : Side :=
  let value := raw.takeWhile (· ≠ '\t')
  if value.head? = some '"' then
    ⟨none, some ("the diff names a C-quoted path (".toList ++ value ++
      "); this reader does not decode those escapes, because decoding one wrong attributes findings to the wrong file".toList), value⟩
  else if value = devNull then ⟨none, none, value⟩
  else
    let path := (stripPrefix opener value).getD value
    if path = [] then
      ⟨none, some "the diff has an empty path on one side of its '---'/'+++' pair".toList, value⟩
    else ⟨some path, none, value⟩

def aSlash : Text := "a/".toList
def bSlash : Text := "b/".toList

/-- The file that a refusal or a note names: the `+++` path, the `---` path, then the label of
the `diff --git` line. -/
def label (read : Headers) : Option Text :=
  ((read.newRaw.bind fun raw => (side raw bSlash).path).or
    (read.oldRaw.bind fun raw => (side raw aSlash).path)).or read.named

/-- A section whose two sides name different files. -/
def twoPaths (old new : Side) : Text :=
  let before := old.path.getD []
  let after := new.path.getD []
  if old.raw = new.raw then
    "this section's '---' and '+++' headers both name ".toList ++ old.raw ++
      ", and only one of them carries the 'a/' or 'b/' prefix git adds, so the two sides resolve to ".toList ++
      before ++ " and ".toList ++ after ++
      "; regenerate the diff with git's default prefixes (drop --no-prefix)".toList
  else
    "this section renames ".toList ++ before ++ " to ".toList ++ after ++
      ", which one edit cannot express because an edit carries a single path; lint the content change separately".toList

/-- The two paths of a section resolved into one, then its hunks. -/
def pathsThenHunks (lines : List Text) (oldRaw newRaw : Text) (at_ : Nat) (label : Option Text)
    (ordinal resume : Nat) : Section :=
  let old := side oldRaw aSlash
  let new := side newRaw bSlash
  match old.reason.or new.reason with
  | some reason => sectionError label ordinal resume reason
  | none =>
    match old.path, new.path with
    | some before, some after =>
      if before ≠ after then sectionError label ordinal resume (twoPaths old new)
      else hunks quoted lines at_ ⟨after, false⟩ ordinal resume
    | none, some after => hunks quoted lines at_ ⟨after, true⟩ ordinal resume
    | some before, none => hunks quoted lines at_ ⟨before, false⟩ ordinal resume
    | none, none => sectionError label ordinal resume
        "both sides of this section are /dev/null, so it names no file at all".toList

/-- A section without both of the `---` and `+++` headers. -/
def withoutPair (lines : List Text) (read : Headers) (label : Option Text)
    (ordinal resume : Nat) : Section :=
  if read.oldRaw.isSome || read.newRaw.isSome then
    sectionError label ordinal resume
      "this section has only one of the '---' and '+++' headers, so which file it changes is not stated".toList
  else if lines[read.next]?.any opensHunk then
    sectionError label ordinal resume
      "this section has hunks but neither a '---' nor a '+++' header, so the file they change is not stated; a mode-only change carries no hunks".toList
  else
    match label with
    | none => sectionError none ordinal resume
        "this section names no file: no '---'/'+++' pair and no 'diff --git' header".toList
    | some label => sectionNote label ordinal resume
        "mode change only, so there is no content to check".toList

def fileSection (lines : List Text) (at_ : Nat) (line : Text) (ordinal : Nat) : Section :=
  let read := headers quoted lines at_ line
  let resume := skipToNextSection quoted lines read.next read.gitSection
  let label := label read
  match read.reason with
  | some reason => sectionError label ordinal resume reason
  | none =>
    if read.binary then
      sectionNote (label.getD []) ordinal resume "binary, so there is no text to check".toList
    else if read.renamed then
      sectionError label ordinal resume
        "this section renames or copies a file, which one edit cannot express because an edit carries a single path; lint the content change separately from the rename".toList
    else
      match read.oldRaw, read.newRaw with
      | some old, some new => pathsThenHunks quoted lines old new read.next label ordinal resume
      | _, _ => withoutPair lines read label ordinal resume

theorem headersFrom_next (rest : List Text) (read : Headers) :
    read.next ≤ (headersFrom quoted rest read).next ∧
      (headersFrom quoted rest read).next ≤ read.next + rest.length := by
  fun_induction headersFrom quoted rest read with
  | case1 => simp
  | case2 => simp
  | case3 read line rest old new hline ih => simp only [List.length_cons] at *; omega
  | case4 read line rest hline ih => simp only [List.length_cons] at *; omega
  | case5 read line rest hline ih => simp only [List.length_cons] at *; omega
  | case6 read line rest stop hline =>
    cases stop <;> simp [stopped]

theorem headerLine_of_opensSection {line : Text} (hopens : opensSection line)
    (hgit : diffGit.isPrefixOf line = false) :
    ∃ old, headerLine quoted line none none = .pair (some old) none ∨
      ∃ reason, headerLine quoted line none none = .stop (.crlf reason) := by
  have hold : oldOpener.isPrefixOf line := by
    simp only [opensSection, hgit, Bool.false_or, Bool.and_eq_true] at hopens
    exact hopens.1
  obtain ⟨rest, rfl⟩ := List.isPrefixOf_iff_prefix.mp hold
  refine ⟨rest, ?_⟩
  have hhunk : opensHunk (oldOpener ++ rest) = false := rfl
  have hpath : pathLine (oldOpener ++ rest) none none = some (some rest, none) := by
    simp [pathLine, stripPrefix_append]
  unfold headerLine
  rw [hhunk, hpath]
  cases crlf quoted (oldOpener ++ rest) with
  | none => exact .inl rfl
  | some reason => exact .inr ⟨reason, rfl⟩

theorem headers_next {lines : List Text} {at_ : Nat} {line : Text} (hline : lines[at_]? = some line)
    (hopens : opensSection line) :
    at_ < (headers quoted lines at_ line).next ∧
      (headers quoted lines at_ line).next ≤ lines.length := by
  have hlt := (List.getElem?_eq_some_iff.mp hline).1
  unfold headers
  by_cases hgit : diffGit.isPrefixOf line
  · have hnext : (opening quoted line at_).next = at_ + 1 := by simp [opening, hgit]
    have hfrom := headersFrom_next quoted (lines.drop (at_ + 1)) (opening quoted line at_)
    dsimp only
    split
    · omega
    · rw [List.length_drop] at hfrom
      rw [hnext] at hfrom ⊢
      omega
  · have hread : opening quoted line at_ = { next := at_, gitSection := false } := by
      simp [opening, hgit]
    have hdrop : lines.drop at_ = line :: lines.drop (at_ + 1) := by
      rw [List.drop_eq_getElem_cons hlt]
      congr 1
      exact (List.getElem?_eq_some_iff.mp hline).2
    obtain ⟨old, hpair | ⟨reason, hstop⟩⟩ :=
      headerLine_of_opensSection quoted hopens (Bool.eq_false_iff.mpr hgit)
    · have hfrom := headersFrom_next quoted (lines.drop (at_ + 1))
        { oldRaw := some old, next := at_ + 1, gitSection := false }
      rw [List.length_drop] at hfrom
      simp only [hread, Option.isSome_none, Bool.false_eq_true, if_false, hdrop, headersFrom, hpair]
      dsimp only at hfrom
      omega
    · simp only [hread, Option.isSome_none, Bool.false_eq_true, if_false, hdrop, headersFrom, hstop,
        stopped]
      omega

theorem skipToNextSection_next (lines : List Text) (index : Nat) (gitOnly : Bool) :
    index ≤ skipToNextSection quoted lines index gitOnly ∨
      skipToNextSection quoted lines index gitOnly = lines.length := by
  fun_induction skipToNextSection quoted lines index gitOnly with
  | case1 index hline => exact .inr rfl
  | case2 index line hline hopens => exact .inl (Nat.le_refl index)
  | case3 index line hline hopens hhunk stop hstop ih =>
    have := endOfHunk_next quoted hstop
    omega
  | case4 index line hline hopens hhunk hstop ih => omega
  | case5 index line hline hopens hhunk ih => omega

theorem endHunks_next (lines : List Text) (target : Target) (resume next index : Nat)
    (header : Text) (read : List Hunk) :
    (endHunks lines target resume next index header read).next = resume ∨
      (endHunks lines target resume next index header read).next = next := by
  unfold endHunks
  split
  · exact .inl rfl
  · exact .inr rfl

theorem hunksFrom_next (lines : List Text) (target : Target) (resume next index floor : Nat)
    (header : Text) (read : List Hunk) :
    (hunksFrom quoted lines target resume next index floor header read).next = resume ∨
      next ≤ (hunksFrom quoted lines target resume next index floor header read).next := by
  fun_induction hunksFrom quoted lines target resume next index floor header read with
  | case1 next index floor header read hline =>
    exact (endHunks_next lines target resume next index header read).imp_right fun h => h.ge
  | case2 next index floor header read line hline hopens refusal hrefusal => exact .inl rfl
  | case3 next index floor header read line hline hopens found after raised hhunk ih =>
    have := hunk_next quoted hhunk
    dsimp only at this
    omega
  | case4 next index floor header read line hline hopens =>
    exact (endHunks_next lines target resume next index header read).imp_right fun h => h.ge

theorem hunks_next (lines : List Text) (at_ : Nat) (target : Target) (ordinal resume : Nat) :
    (hunks quoted lines at_ target ordinal resume).next = resume ∨
      at_ ≤ (hunks quoted lines at_ target ordinal resume).next := by
  unfold hunks
  split
  · split
    · exact hunksFrom_next quoted lines target resume at_ ordinal 0 _ []
    · exact .inl rfl
  · exact .inl rfl

theorem pathsThenHunks_next (lines : List Text) (oldRaw newRaw : Text) (at_ : Nat)
    (label : Option Text) (ordinal resume : Nat) :
    (pathsThenHunks quoted lines oldRaw newRaw at_ label ordinal resume).next = resume ∨
      at_ ≤ (pathsThenHunks quoted lines oldRaw newRaw at_ label ordinal resume).next := by
  unfold pathsThenHunks
  dsimp only
  split
  · exact .inl rfl
  · split
    · split
      · exact .inl rfl
      · exact hunks_next quoted lines at_ _ ordinal resume
    · exact hunks_next quoted lines at_ _ ordinal resume
    · exact hunks_next quoted lines at_ _ ordinal resume
    · exact .inl rfl

theorem withoutPair_next (lines : List Text) (read : Headers) (label : Option Text)
    (ordinal resume : Nat) : (withoutPair lines read label ordinal resume).next = resume := by
  unfold withoutPair
  split
  · rfl
  · split
    · rfl
    · cases label <;> rfl

theorem fileSection_next {lines : List Text} {at_ : Nat} {line : Text} (ordinal : Nat)
    (hline : lines[at_]? = some line) (hopens : opensSection line) :
    at_ < (fileSection quoted lines at_ line ordinal).next := by
  obtain ⟨hnext, hlength⟩ := headers_next quoted hline hopens
  have hskip := skipToNextSection_next quoted lines (headers quoted lines at_ line).next
    (headers quoted lines at_ line).gitSection
  have hresume : at_ < skipToNextSection quoted lines (headers quoted lines at_ line).next
      (headers quoted lines at_ line).gitSection := by omega
  unfold fileSection
  dsimp only
  split
  · exact hresume
  · split
    · exact hresume
    · split
      · exact hresume
      · split
        · rename_i old new _ _
          have := pathsThenHunks_next quoted lines old new
            (headers quoted lines at_ line).next (label (headers quoted lines at_ line)) ordinal
            (skipToNextSection quoted lines (headers quoted lines at_ line).next
              (headers quoted lines at_ line).gitSection)
          omega
        · rw [withoutPair_next]
          exact hresume

/-! ## The whole diff -/

/-- The hunks and refusals of one diff, and the sections that hold nothing to check. -/
structure DiffHunks where
  hunks : List Hunk := []
  errors : List BlockError := []
  notes : List DiffNote := []
deriving DecidableEq, Repr

def refused (reason : Text) : DiffHunks := { errors := [⟨0, none, reason⟩] }

/-- The lines of the diff, without the empty line after a final line break. -/
def diffLines (text : Text) : List Text :=
  let lines := splitLines text
  if lines.getLast? = some [] then lines.dropLast else lines

/-- The sections from line `at_` on, after those read. -/
def sectionsFrom (lines : List Text) (at_ ordinal sections : Nat) (parsed : DiffHunks) : DiffHunks :=
  match hline : lines[at_]? with
  | none =>
    if sections = 0 then
      refused "no file sections found: this does not look like a unified diff (expected a 'diff --git' or a '---' header naming a file)".toList
    else parsed
  | some line =>
    if combined.any (·.isPrefixOf line) then
      refused "this is a combined (merge) diff, which names two pre-images per hunk; lint the diff against one parent instead".toList
    else if hopens : opensSection line then
      let read := fileSection quoted lines at_ line ordinal
      sectionsFrom lines read.next read.ordinal (sections + 1)
        { hunks := parsed.hunks ++ read.hunks
          errors := parsed.errors ++ read.errors
          notes := parsed.notes ++ read.notes }
    else sectionsFrom lines (at_ + 1) ordinal sections parsed
termination_by lines.length - at_
decreasing_by
  · have := fileSection_next quoted ordinal hline hopens
    have := (List.getElem?_eq_some_iff.mp hline).1
    omega
  · have := (List.getElem?_eq_some_iff.mp hline).1
    omega

def diffHunks (text : Text) : DiffHunks := sectionsFrom quoted (diffLines text) 0 0 0 {}

/-- The edits and refusals of one patch text. -/
structure ParseResult where
  edits : List Edit
  errors : List BlockError
deriving DecidableEq, Repr

structure DiffParse where
  result : ParseResult
  notes : List DiffNote
deriving DecidableEq, Repr

/-- Reads a unified diff as one edit per hunk: the search side is the hunk's context and removed
lines, and the replace side its context and added lines. -/
def parseUnifiedDiff (text : Text) : DiffParse :=
  let read := diffHunks quoted text
  ⟨⟨read.hunks.map Hunk.edit, read.errors⟩, read.notes⟩

end Reader

end Agentless.Patch
