import Agentless.Checks.Contract
import Agentless.Library.Memo

/-!
# Cycle dodges

`cycle_dodge` reports each import in a function body that would close an import cycle at module
level, when the change made it so. A statement is looked up among the old ones of its identity, and
it is skipped when neither their targets nor the imports that run at load changed.
-/

namespace Agentless.Checks.Dodges

open Groups Memo

/-- The tree of a change that an import chain runs in. -/
inductive Tree where
  | before
  | after
deriving DecidableEq, Repr

/-- One repository file that an import statement imports. -/
structure ImportTarget where
  /-- The module as the statement names it, with the dots of its level. -/
  module : Text
  path : Text
deriving DecidableEq, Repr

/-- One import statement in a function body, and the repository files it imports. -/
structure LocalImport where
  path : Text
  line : Nat
  /-- The qualified name of the innermost declaration around the statement. -/
  function : Option Text
  module : Text
  /-- The number of leading dots. -/
  level : Nat
  names : List Text
  targets : List ImportTarget
deriving DecidableEq, Repr

/-- A module that a file imports when it loads. -/
structure LoadedModule where
  path : Text
  module : Text
  level : Nat
deriving DecidableEq, Repr

/-- One side of a changed file whose facts hold an error span, so the check does not compare the
file. -/
structure Unparsed where
  path : Text
  tree : Tree
  line : Nat
deriving DecidableEq, Repr

/-- The imports in function bodies of the two trees of a change, in the files the check reads. -/
structure LocalImports where
  after : List LocalImport
  before : List LocalImport
  /-- Each module that a file imports when it loads, in the tree before the change. -/
  beforeLoads : List LoadedModule
  /-- Whether the imports that run at load connect other pairs of files after the change. -/
  loadsChanged : Bool
  unparsed : List Unparsed
deriving DecidableEq, Repr

/-- One load-time import of a chain: the statement at `path` and `line`, which imports `target`. -/
structure ChainHop where
  path : Text
  line : Nat
  target : Text
deriving DecidableEq, Repr

/-- The search for a chain reached its time budget. -/
structure BudgetSpent where
  seconds : Nat
deriving DecidableEq, Repr

/-- The shortest chain of imports that run at load from the one file to the other. -/
abbrev LoadChains (σ : Type) : Type :=
  Tree → Text → Text → StateT σ (Except BudgetSpent) (Option (List ChainHop))

/-- What a change did to make a function-local import close a cycle at module level. -/
inductive DodgeVia where
  /-- The import moved into the function from module level in the same file. -/
  | moved
  | new
  /-- The import did not change; the change made the chain back. -/
  | returnPath
deriving DecidableEq, Repr

structure ImportDodge where
  module : Text
  target : Text
  function : Text
  via : DodgeVia
  chain : List ChainHop
deriving DecidableEq, Repr

/-- A finding of the check, with its dodge unless the row says what was not checked. -/
structure DodgeRow where
  finding : Finding
  detail : Option ImportDodge
deriving DecidableEq, Repr

def cycleDodgeName : Text := "cycle_dodge".toList

/-! ## What is not checked -/

def gapRow (path message evidence : Text) : DodgeRow where
  finding :=
    { check := cycleDodgeName, severity := .notChecked, message, path, line := 0, evidence }
  detail := none

def budgetSpent (seconds : Nat) : DodgeRow :=
  gapRow [] ("not checked: cycle_dodge stopped at its time budget of ".toList ++
    Nat.toDigits 10 seconds ++ (" s before it read the imports of every file in the repository, " ++
      "so it compared no import.").toList) "time budget spent".toList

/-- A partial search can miss the chain of the tree before the change and make a false row, so a
stop gives one row and no finding. -/
def stopped (seconds : Nat) : List DodgeRow := [budgetSpent seconds]

/-- A side that the parser gives no tree stops the run. -/
def refuseUnparsable (pair : Pair) : Except Error PUnit :=
  let unparsable := [pair.old, pair.new].findSome? fun side =>
    match side with
    | some (.error .unparsable) => some SideError.unparsable
    | _ => none
  match unparsable with
  | some error => .error (.side pair.path error)
  | none => .ok ⟨⟩

def Tree.change : Tree → Text
  | .before => "before".toList
  | .after => "after".toList

/-- The row names the old side when both sides hold an error. -/
def notParsed (unparsed : List Unparsed) (pair : Pair) : Except Error (Option DodgeRow) := do
  refuseUnparsable pair
  let sides := unparsed.filter fun side => side.path = pair.path
  return ((sides.find? fun side => side.tree = .before).or sides.head?).map fun side =>
    let reason := pair.path ++ " does not parse: the first syntax error is at line ".toList ++
      Nat.toDigits 10 side.line ++ (". Imports are compared only in a file that parses. Fix the " ++
        "syntax error, then run the check again.").toList
    let message := "not checked: cycle_dodge did not compare ".toList ++ pair.path ++
      ", because its text ".toList ++ side.tree.change ++ " the change does not parse. ".toList ++
      reason
    gapRow pair.path message unmeasurableSource

def unparsedRows (unparsed : List Unparsed) : List Pair → Except Error (List DodgeRow)
  | [] => .ok []
  | pair :: pairs =>
    match pair.language with
    | none => unparsedRows unparsed pairs
    | some _ => do
      let row ← notParsed unparsed pair
      let rows ← unparsedRows unparsed pairs
      return row.toList ++ rows

/-! ## The statements -/

/-- A statement pairs with the statements of the tree before the change that have its identity. -/
structure Identity where
  path : Text
  function : Option Text
  module : Text
  level : Nat
  names : List Text
deriving DecidableEq, Repr

def identity (statement : LocalImport) : Identity where
  path := statement.path
  function := statement.function
  module := statement.module
  level := statement.level
  names := statement.names

/-- The file imported the same module at load before the change. -/
def loadedBefore (imports : LocalImports) (statement : LocalImport) : Bool :=
  imports.beforeLoads.contains
    { path := statement.path, module := statement.module, level := statement.level }

def sameTargets (old : List LocalImport) (statement : LocalImport) : Bool :=
  old.all fun held => held.targets = statement.targets

/-- What the change may have done, none for an old statement whose targets and load-time graph did
not change. -/
def dodgeVia (imports : LocalImports) (statement : LocalImport) : List LocalImport → Option DodgeVia
  | [] => some (if loadedBefore imports statement then .moved else .new)
  | held :: old =>
    if !imports.loadsChanged && sameTargets (held :: old) statement then none else some .returnPath

def arrow : Text := " -> ".toList

def finding (statement : LocalImport) (target : ImportTarget) (chain : List ChainHop)
    (via : DodgeVia) : DodgeRow :=
  let function := statement.function.getD moduleUnit
  let path := statement.path
  let cycle := path :: (chain.map ChainHop.path ++ [path])
  let hops := chain.map fun hop => hop.path ++ ':' :: Nat.toDigits 10 hop.line
  { finding := {
      check := cycleDodgeName
      severity := .advisory
      message := "The import of \x60".toList ++ target.module ++ "\x60 in \x60".toList ++
        function ++ ("\x60 runs only when the function runs. At module level it closes " ++
          "this import cycle: ").toList ++ arrow.intercalate cycle ++
        (". Break the cycle: move the shared code to a module that both " ++
          "files import, or invert the dependency.").toList
      path
      line := statement.line
      evidence := path ++ ':' :: Nat.toDigits 10 statement.line ++ " imports ".toList ++
        target.path ++ "; ".toList ++ target.path ++ " imports ".toList ++ path ++
        " back through ".toList ++ arrow.intercalate hops }
    detail := some { module := target.module, target := target.path, function, via, chain } }

section Search

variable {σ : Type} (chains : LoadChains σ)

/-- The first target, in statement order, that imports the statement's file back at load. -/
def firstChain (tree : Tree) (statement : LocalImport) :
    StateT σ (Except BudgetSpent) (Option (ImportTarget × List ChainHop)) :=
  firstSome (fun target => do
    let chain ← chains tree target.path statement.path
    return chain.map fun chain => (target, chain)) statement.targets

/-- The row of one statement of the tree after the change, when the change made it close a cycle. -/
def dodge (imports : LocalImports) (old : List LocalImport) (statement : LocalImport) :
    StateT σ (Except BudgetSpent) (Option DodgeRow) :=
  match dodgeVia imports statement old with
  | none => return none
  | some via => do
    match ← firstChain chains .after statement with
    | none => return none
    | some (target, chain) => do
      match ← firstSome (firstChain chains .before) old with
      | some _ => return none
      | none => return some (finding statement target chain via)

/-- The statements of the tree after the change in files that parse. -/
def compared (imports : LocalImports) (unread : List Text) : List LocalImport :=
  imports.after.filter fun statement => !unread.contains statement.path

/-- The statements of the tree before the change that have the identity of the statement. -/
def oldStatements (imports : LocalImports) (statement : LocalImport) : List LocalImport :=
  lookup (grouped identity imports.before) (identity statement)

def dodges (imports : LocalImports) (unread : List Text) :
    StateT σ (Except BudgetSpent) (List DodgeRow) :=
  collect (fun statement => dodge chains imports (oldStatements imports statement) statement)
    (compared imports unread)

/-- What the check reads of the trees before and after a change, or the stop of its scan. -/
inductive DodgeTree (σ : Type) where
  | built (imports : LocalImports) (chains : LoadChains σ) (state : σ)
  | stopped (seconds : Nat)

/-- The rows of the check in the order in which findings are shown. -/
def cycleDodge (pairs : List Pair) : DodgeTree σ → Except Error (List DodgeRow)
  | .stopped seconds => .ok (stopped seconds)
  | .built imports chains state => do
    refuseRepeats pairs
    let gaps ← unparsedRows imports.unparsed pairs
    match dodges chains imports (gaps.map fun row => row.finding.path) state with
    | .error spent => return stopped spent.seconds
    | .ok (rows, _) =>
      return (gaps ++ rows).insertionSort fun x y => precedes x.finding y.finding

end Search

end Agentless.Checks.Dodges
