import Agentless.Graph.Paths
import Agentless.Hook.Payload
import Agentless.Io.Path
import Agentless.Text.Shell

/-!
# The tree search in a shell command

The words, the commands between separators, and the grep, rg and find rules.
-/

namespace Agentless.Hook.Search

open Agentless.Graph Shell StdPath

def grepNames : List Text := ["grep", "egrep", "fgrep"].map String.toList

/-- rg walks the working directory by default, so it follows another rule than grep. -/
def rgNames : List Text := ["rg", "ripgrep"].map String.toList

def findNames : List Text := ["find", "fd", "fdfind"].map String.toList

def recursiveFlags : List Text :=
  ["-r", "-R", "--recursive", "--dereference-recursive"].map String.toList

def findSearchFlags : List Text :=
  ["-name", "-iname", "-path", "-ipath", "-regex", "-iregex"].map String.toList

/-- A command after a pipe filters the output of the one before it, and reads no repository file. -/
def pipe : Text := "|".toList

def separators : List Text := ["|", "||", "&&", ";", "&"].map String.toList

def dash : Nat := 0x2d

def recursiveLetters : List Nat := [0x72, 0x52]

/-! ## File tests -/

structure Metadata where
  isDir : Bool

/-- The directory that a relative path resolves against: the payload's, as code points, or the
start-up directory. -/
inductive Base where
  | text (cwd : CodePointString)
  | path (cwd : Bytes)

/-- The answers of `stat` for a path, with no metadata for a file that is absent. -/
abbrev Disk := Bytes → Except Suppressed (Option Metadata)

/-- UTF-8, with each of U+DC80 to U+DCFF as the byte it escapes. Any other lone surrogate gives
nothing. -/
def osUnit (code : Nat) : Option Bytes :=
  if code.isValidChar then some (String.utf8EncodeChar (Char.ofNat code))
  else if 0xdc80 ≤ code ∧ code ≤ 0xdcff then some [UInt8.ofNat (code - 0xdc00)]
  else none

def osPath (text : CodePointString) : Option Bytes :=
  (text.codePoints.mapM osUnit).map List.flatten

def joined (base : Base) (path : CodePointString) : Option Bytes := do
  let path ← osPath path
  match base with
  | .text cwd => return join (← osPath cwd) path
  | .path cwd => return join cwd path

/-- The stat of a path with no `.` parts and no trailing slash. A NUL is no file. -/
def present (disk : Disk) (path : Bytes) : Except Suppressed (Option Metadata) :=
  if path.contains 0 then .ok none else disk (ofComponents (components path))

/-- A path that has no bytes is no file. -/
def found (disk : Disk) (base : Base) (path : CodePointString) :
    Except Suppressed (Option Metadata) :=
  match joined base path with
  | some joined => present disk joined
  | none => .ok none

/-! ## Commands -/

/-- The word is one of the names. -/
def is (word : CodePointString) (names : List Text) : Bool := word.asStr.any names.contains

/-- The commands behind the words of an open one. -/
def commandsFrom (piped : Bool) (argv : List CodePointString) :
    List CodePointString → List (Bool × List CodePointString)
  | [] => [(piped, argv)]
  | word :: words =>
    if is word separators then (piped, argv) :: commandsFrom (is word [pipe]) [] words
    else commandsFrom piped (argv ++ [word]) words

/-- Each command between separators, with true when it reads the output of the one before it. -/
def commands (words : List CodePointString) : List (Bool × List CodePointString) :=
  (commandsFrom false [] words).filter fun command => !command.2.isEmpty

def posixName (path : Text) : Text := ((path.splitOn '/').reverse.find? isPosixPart).getD []

/-- A recursive flag, or a short cluster such as -rn. A long option such as --regexp is no
cluster. -/
def recursive (word : CodePointString) : Bool :=
  if is word recursiveFlags then true
  else
    match word.codePoints with
    | [] => false
    | first :: rest =>
      first == dash && rest.head?.any (· != dash) && rest.any recursiveLetters.contains

def startsWithDash (word : CodePointString) : Bool := word.codePoints.head? == some dash

def anyDirectory (disk : Disk) (cwd : Base) : List CodePointString → Except Suppressed Bool
  | [] => return false
  | path :: paths => do
    if (← found disk cwd path).any Metadata.isDir then return true
    anyDirectory disk cwd paths

/-- rg walks the working directory unless every path after the pattern is something other than a
directory. A word that starts with a dash is an option, not a path. -/
def rgWalksATree (disk : Disk) (cwd : Base) (args : List CodePointString) : Except Suppressed Bool :=
  let operands := args.filter fun arg => !startsWithDash arg
  let paths := operands.drop 1
  if paths.isEmpty then .ok true else anyDirectory disk cwd paths

/-- The program is the last part of the first word. A lone surrogate becomes U+FFFD, which no
program name holds. -/
def searchesATree (disk : Disk) (cwd : Base) (words : List CodePointString) :
    Except Suppressed Bool :=
  match words with
  | [] => .ok false
  | first :: rest =>
    let name := posixName (lossy first)
    if grepNames.contains name then .ok (rest.any recursive)
    else if rgNames.contains name then rgWalksATree disk cwd rest
    else if findNames.contains name then .ok (rest.any fun word => is word findSearchFlags)
    else .ok false

/-- The search among commands. A command that reads a pipe is not looked at. -/
def anySearch (disk : Disk) (cwd : Base) :
    List (Bool × List CodePointString) → Except Suppressed Bool
  | [] => return false
  | (piped, argv) :: commands => do
    if !piped then
      if ← searchesATree disk cwd argv then return true
    anySearch disk cwd commands

/-- Unbalanced quoting is doubt, not evidence: the command may not even run. -/
def broadSearch (disk : Disk) (cwd : Base) (command : CodePointString) : Except Suppressed Bool :=
  match splitShellCodePoints command with
  | .error _ => .ok false
  | .ok words => anySearch disk cwd (commands words)

end Agentless.Hook.Search
