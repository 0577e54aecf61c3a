import Agentless.App.Budget
import Agentless.App.Cards

/-!
# Packing a map

The symbols of the ranked files compete for the token budget. A map keeps the longest prefix of
them that a search over its rendered rows finds to fit: each ranked file's header, id pattern and
symbol rows, with the line for the symbols it leaves out.
-/

namespace Agentless.App

open Facts Prompts Text Agentless.Graph

/-- One symbol row of a map. -/
structure MapEntry where
  line : Nat
  signature : Text
  stableId : Text
  depth : Nat
  rationales : List RationaleNode
  name : Text
deriving DecidableEq, Repr

structure MapFile (Rank : Type) where
  path : Text
  rank : Rank
  entries : List MapEntry
  total : Nat
  /-- The language prefix of the entries' ids, or empty when there is no entry. -/
  idPrefix : Text
  reached : Bool
  commitsWindow : Option Nat
  lastCommitDays : Option Int

def MapFile.omitted {Rank : Type} (file : MapFile Rank) : Nat := file.total - file.entries.length

def nesting : Text := "    ".toList

def churnWindowDays : Nat := 90

def intText (n : Int) : Text :=
  if n < 0 then '-' :: Nat.toDigits 10 n.natAbs else Nat.toDigits 10 n.natAbs

/-- The row names the symbol by its qualified name; the id pattern above it spells the rest. -/
def entryRows (entry : MapEntry) : List Text :=
  let name := if entry.name = [] then entry.stableId else entry.name
  let indent := (List.replicate entry.depth nesting).flatten
  let nested := (List.replicate (entry.depth + 1) nesting).flatten
  (rowIndent ++ indent ++ oneLine entry.signature ++ "  ".toList ++
      locator name [] (some (Nat.toDigits 10 entry.line))) ::
    entry.rationales.map fun node =>
      rowIndent ++ nested ++ "# ".toList ++ (oneLine node.kind.asStr).map Char.toUpper ++
        ": ".toList ++ oneLine node.text ++ "  ".toList ++
        locator node.stableId node.parentId (some (Nat.toDigits 10 node.line))

/-- No budget shows a symbol in a file the focus has no path to, so that file says so instead. -/
def omissionText (reached : Bool) (omitted : Nat) : Option Text :=
  if omitted = 0 then none
  else if reached then some (fill mapSymbolsUnlisted [.ofCount omitted])
  else some (fill mapFileUnreached [.ofCount omitted])

section Rows
variable {Rank : Type} (fixed : Rank → Nat → Text)

def omission (file : MapFile Rank) : Option Text := omissionText file.reached file.omitted

def churnClause (file : MapFile Rank) : Text :=
  match file.commitsWindow with
  | none => []
  | some commits =>
    let last := match file.lastCommitDays with
      | none => []
      | some days => ", last ".toList ++ intText days ++ ['d']
    ", ".toList ++ Nat.toDigits 10 commits ++ "c/".toList ++ Nat.toDigits 10 churnWindowDays ++
      ['d'] ++ last

def fileLines (file : MapFile Rank) (wallpaper : Bool) : List Text :=
  let churn := if wallpaper then [] else churnClause file
  let header := oneLine file.path ++ "  (rank ".toList ++ fixed file.rank 4 ++ churn ++ ")".toList
  let pattern := stableIdsLine file.idPrefix file.path
  header :: (if pattern = [] then [] else [pattern]) ++ file.entries.flatMap entryRows ++
    (omission file).toList

def fileBlock (file : MapFile Rank) (wallpaper : Bool) : Text :=
  joinLines (fileLines fixed file wallpaper)

/-- One churn pair on every file tells no file apart, so the clause drops for two or more. -/
def mapRowsText (files : List (MapFile Rank)) : Text :=
  if files.isEmpty then "no ranked files\n".toList
  else
    let pairs := (files.map fun file => (file.commitsWindow, file.lastCommitDays)).dedup
    let wallpaper := 1 < files.length && pairs.length = 1
    "\n\n".toList.intercalate (files.map fun file => fileBlock fixed file wallpaper) ++ ['\n']

end Rows

/-! ## Packing a map -/

/-- The ranking's chosen files, best first, with their facts and ranks. -/
structure Shortlist (Rank : Type) where
  chosen : List Text
  file : Text → FileFacts
  rank : Text → Rank
  reached : Text → Bool
  nodup : chosen.Nodup

/-- One symbol competing for a place in the map. -/
structure Candidate where
  file : FileFacts
  symbol : Declared
  stableId : Text

/-- What the budget search renders: the symbols that compete, each file's count, and the
ranking. -/
structure Packing (Rank : Type) where
  eligible : List Candidate
  totals : Text → Nat
  ranked : Shortlist Rank
  placed : ∀ candidate ∈ eligible, candidate.file = ranked.file candidate.file.path

def entry (candidate : Candidate) : MapEntry :=
  { line := candidate.symbol.line
    signature := candidate.symbol.signature
    stableId := candidate.stableId
    depth := if candidate.symbol.parent = [] then 0 else 1
    rationales := rationaleNodes candidate.file.language candidate.file.path candidate.symbol
    name := candidate.symbol.idQualname }

namespace Packing
variable {Rank : Type} (packing : Packing Rank)

/-- The first `shown` eligible symbols that lie in the file at `path`. -/
def perFile (shown : Nat) (path : Text) : List Candidate :=
  (packing.eligible.take shown).filter fun candidate => candidate.file.path = path

def byLine (shown : Nat) (path : Text) : List Candidate :=
  (packing.perFile shown path).insertionSort fun a b => a.symbol.line ≤ b.symbol.line

def mapFile (shown : Nat) (path : Text) : MapFile Rank :=
  let chosen := packing.byLine shown path
  { path := path
    rank := packing.ranked.rank path
    entries := chosen.map entry
    total := packing.totals path
    idPrefix := (chosen.head?.map fun first => first.file.language.idPrefix).getD []
    reached := packing.ranked.reached path
    commitsWindow := none
    lastCommitDays := none }

/-- The first `shown` eligible symbols, grouped under every ranked file in rank order. The paths
are distinct, so that each file takes all its symbols. -/
def group (shown : Nat) : List (MapFile Rank) :=
  packing.ranked.chosen.map (packing.mapFile (min shown packing.eligible.length))

variable (fixed : Rank → Nat → Text) (count : Text → Nat)

def fits (budget kept : Nat) : Bool := count (mapRowsText fixed (packing.group kept)) ≤ budget

/-- The largest prefix of the eligible symbols whose render, file rows included, fits `budget`. -/
def pack (budget : Nat) : Nat :=
  longestFitting 0 packing.eligible.length (packing.fits fixed count budget)

end Packing

end Agentless.App
