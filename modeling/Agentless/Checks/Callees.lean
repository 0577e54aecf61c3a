import Agentless.Checks.Contract
import Agentless.Library.Find

/-!
# Callee overlap

`callee_overlap` reports each new or rewritten function that calls most of the functions an existing
function calls. Candidates come from an index of the callers of each function, and a pair of two
checked units that meet the rule both ways keeps the row of the unit that comes first.
-/

namespace Agentless.Checks.Callees

open Groups

/-- An existing function needs this many counted callees before a copy of it can be found. -/
def minCallees : Nat := 3

/-- The share is `shareParts / shareWhole` of the existing function's callees. -/
def shareParts : Nat := 4

def shareWhole : Nat := 5

/-- This many other functions that meet the rule for one function are a convention, not a copy. -/
def familyLimit : Nat := 5

def maxRowsPerUnit : Nat := 3

/-- One function that an edge of a tree function reaches. -/
structure Callee where
  id : Text
  name : Text
  qualname : Text
  tier : Text
deriving DecidableEq, Repr

/-- One function of the tree after the change, with the functions it calls at a binding tier. -/
structure TreeFunction where
  path : Text
  name : Text
  qualname : Text
  /-- The first line, at the first attribute or decorator. -/
  line : Nat
  /-- The line of the name, which is the first line of the function's metrics unit. -/
  nameLine : Nat
  /-- Each counted callee once. -/
  callees : List Callee
  /-- Each name that the function's lines spell, sorted, each once. -/
  spelled : List Text
deriving DecidableEq, Repr

def TreeFunction.calleeIds (function : TreeFunction) : List Text := function.callees.map Callee.id

/-- The names are sorted, so the search among them finds each of them. -/
def spells (function : TreeFunction) (name : Text) : Bool := function.spelled.contains name

/-- A metrics qualname joins its scopes with dots, so the own name is its last part. -/
def ownName (qualname : Text) : Text := ((Find.rsplitOnce '.' qualname).map Prod.snd).getD qualname

section Index

variable (functions : List TreeFunction)

/-- A function of the tree, by its position. -/
abbrev At : Type := Fin functions.length

variable {functions} in
def At.get (f : At functions) : TreeFunction := functions.get f

/-- The first function whose name starts there. -/
def byPlace (path name : Text) (nameLine : Nat) : Option (At functions) :=
  (List.finRange functions.length).find? fun f =>
    (At.get f).path = path ∧ (At.get f).name = name ∧ (At.get f).nameLine = nameLine

/-- The functions that call the callee, each with the slot of the call. -/
def callers (id : Text) : List (At functions × Nat) :=
  let calls := (List.finRange functions.length).flatMap fun f =>
    (At.get f).callees.zipIdx.map fun callee => (callee.1.id, (f, callee.2))
  (lookup (grouped Prod.fst calls) id).map Prod.snd

/-- A unit the check reads: new, or rewritten with the names its old body spelled. -/
structure Checked where
  paired : Paired
  function : At functions
  oldSpelled : Option (List Text)
deriving DecidableEq, Repr

/-- One candidate row: the unit's function and the existing function it overlaps. -/
structure Row where
  unit : Checked functions
  other : At functions
  shared : List (Nat × Nat)
  family : Nat
deriving DecidableEq, Repr

/-- The function of the row's unit and the existing function. -/
def Row.direction (row : Row functions) : At functions × At functions :=
  (row.unit.function, row.other)

/-- The names that the old body of a rewritten unit spelled, none for a new unit. -/
def oldSpelled (spelledIn : Parsed → Metrics.Unit → List Text) (measured : List (Sides Parsed))
    (paired : Paired) : Option (Option (List Text)) :=
  match paired.via, paired.old with
  | .new, _ => some none
  | .name, some old | .collision, some old =>
    if old.unit.bodyKey ≠ paired.new.unit.bodyKey then
      (measured[old.file]?.bind Sides.old).map fun side => some (spelledIn side.parsed old.unit)
    else none
  | _, _ => none

/-- A new unit, or a rewritten one with its old names, joined to its tree function. -/
def checked (spelledIn : Parsed → Metrics.Unit → List Text) (measured : List (Sides Parsed))
    (paired : Paired) : Option (Checked functions) := do
  let oldSpelled ← oldSpelled spelledIn measured paired
  let new := paired.new.unit
  let function ← byPlace functions paired.new.path (ownName new.qualname) new.startLine
  return { paired, function, oldSpelled }

variable {functions}

/-! ## The rule -/

/-- The rule for `f` against `g`: `g` has enough callees, `f` calls most of them, and `f` never
spells `g`. -/
def meets (f g : At functions) (shared : Nat) : Bool :=
  minCallees ≤ (At.get g).callees.length ∧
    shareParts * (At.get g).callees.length ≤ shareWhole * shared ∧
    ¬ spells (At.get f) (At.get g).name

/-- The old body already spelled most of the callees of `g`, so the rewrite did not make the
copy. -/
def oldMet (old : List Text) (g : At functions) : Bool :=
  shareParts * (At.get g).callees.length ≤
    shareWhole * (At.get g).callees.countP fun callee => old.contains callee.name

/-- Every other function that shares a callee with `g`, once for each callee that they share. -/
def sharers (g : At functions) : List (At functions × (Nat × Nat)) :=
  (At.get g).callees.zipIdx.flatMap fun callee =>
    (callers functions callee.1.id).map fun caller => (caller.1, (callee.2, caller.2))

/-- Every function besides `g` that meets the rule for `g`. -/
def members (g : At functions) : List (At functions) :=
  (((grouped Prod.fst (sharers g)).filter fun group =>
    group.1 ≠ g ∧ meets group.1 g group.2.length).map Prod.fst).insertionSort (· ≤ ·)

/-- The members of each family that was asked for, found once. -/
abbrev Families (functions : List TreeFunction) : Type :=
  List (At functions × List (At functions))

/-- The members of the family of `g`, which are kept for the next time. -/
def Families.find (families : Families functions) (g : At functions) :
    List (At functions) × Families functions :=
  match families.lookup g with
  | some members => (members, families)
  | none => (members g, (g, members g) :: families)

/-- How many functions besides `f` and `g` meet the rule for `g`. -/
def Families.of (families : Families functions) (g f : At functions) : Nat × Families functions :=
  let (members, families) := families.find g
  (members.length - (members.contains f).toNat, families)

/-! ## The rows -/

/-- More shared callees first, then the larger set of the other function, then its path and line,
then the order of the tree. -/
def ahead (x y : Row functions) : Prop :=
  y.shared.length < x.shared.length ∨ x.shared.length = y.shared.length ∧
    ((At.get y.other).callees.length < (At.get x.other).callees.length ∨
      (At.get x.other).callees.length = (At.get y.other).callees.length ∧
        ((At.get x.other).path < (At.get y.other).path ∨
          (At.get x.other).path = (At.get y.other).path ∧
            ((At.get x.other).line < (At.get y.other).line ∨
              (At.get x.other).line = (At.get y.other).line ∧ x.other ≤ y.other)))

instance : DecidableRel (@ahead functions) := fun x y => inferInstanceAs (Decidable (
  y.shared.length < x.shared.length ∨ x.shared.length = y.shared.length ∧
    ((At.get y.other).callees.length < (At.get x.other).callees.length ∨
      (At.get x.other).callees.length = (At.get y.other).callees.length ∧
        ((At.get x.other).path < (At.get y.other).path ∨
          (At.get x.other).path = (At.get y.other).path ∧
            ((At.get x.other).line < (At.get y.other).line ∨
              (At.get x.other).line = (At.get y.other).line ∧ x.other ≤ y.other)))))

/-- The candidates whose families are small enough, with the families found on the way. -/
def smallFamilies (unit : Checked functions) :
    Families functions → List (At functions × List (At functions × (Nat × Nat))) →
      List (Row functions) × Families functions
  | families, [] => ([], families)
  | families, group :: groups =>
    let (family, families) := families.of group.1 unit.function
    let (rows, families) := smallFamilies unit families groups
    if family < familyLimit then
      ({ unit, other := group.1, shared := group.2.map Prod.snd, family } :: rows, families)
    else (rows, families)

/-- The rows of one unit: the existing functions it meets the rule for, best first. -/
def rows (families : Families functions) (unit : Checked functions) :
    List (Row functions) × Families functions :=
  let f := unit.function
  let groups := (grouped Prod.fst (sharers f)).filter fun group =>
    (group.1 ≠ f ∧ meets f group.1 group.2.length) ∧
      ¬ unit.oldSpelled.any fun old => oldMet old group.1
  let (rows, families) := smallFamilies unit families groups
  ((rows.insertionSort ahead).take maxRowsPerUnit, families)

/-- The candidate rows of all units, which share the families. -/
def allRows : Families functions → List (Checked functions) → List (Row functions)
  | _, [] => []
  | families, unit :: units =>
    let (rows, families) := rows families unit
    rows ++ allRows families units

/-- Where a function's name starts. -/
def before (f g : At functions) : Bool :=
  (At.get f).path < (At.get g).path ∨
    (At.get f).path = (At.get g).path ∧ (At.get f).nameLine < (At.get g).nameLine

/-- A pair of two checked units that meet the rule both ways keeps the row of the unit that comes
first by path and line. -/
def oncePerPair (rows : List (Row functions)) : List (Row functions) :=
  let found := rows.map (Row.direction functions)
  rows.filter fun row => ¬ found.contains (row.other, row.unit.function) ∨
    before row.unit.function row.other

/-- The rows that are reported for the checked units. -/
def kept (units : List (Checked functions)) : List (Row functions) :=
  oncePerPair (allRows [] units)

end Index

/-- The rows of a run over a tree of functions. -/
def calleeOverlap (spelledIn : Parsed → Metrics.Unit → List Text)
    (functions : List TreeFunction) (measured : List (Sides Parsed)) : List (Row functions) :=
  kept ((matchRun (fileUnits measured)).filterMap (checked functions spelledIn measured))

end Agentless.Checks.Callees
