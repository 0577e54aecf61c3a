import Agentless.Library.Groups
import Agentless.Metrics.Units
import Agentless.Syntax.Language
import Mathlib.Data.List.Sort

/-!
# The matching of units

Old and new units are paired by their bodies, within each file and then across files, and the rest
by name and by rank.
-/

namespace Agentless.Checks

open Groups

/-- One side of a file that measured: its parse and its units. -/
structure Measured (π : Type) where
  parsed : π
  units : List Metrics.Unit

/-- One file of a run, `none` for a side that does not exist. -/
structure Sides (π : Type) where
  path : Text
  language : Syntax.Language
  old : Option (Measured π)
  new : Option (Measured π)

/-- A side that does not exist measures as an empty text. -/
def units {π : Type} (side : Option (Measured π)) : List Metrics.Unit :=
  (side.map Measured.units).getD []

/-- How a new unit was paired with an old one. -/
inductive Match where
  /-- The body is the same, with the unit's own name left out. -/
  | body
  /-- One old and one new unit have the name. -/
  | name
  /-- Several units have the name, paired by rank. -/
  | collision
  /-- No old unit pairs with it. -/
  | new
deriving DecidableEq, Repr

/-- `file` and `index` are the unit's identity within its side of the run. -/
structure UnitRef where
  file : Nat
  index : Nat
  path : Text
  unit : Metrics.Unit
deriving DecidableEq, Repr

def UnitRef.id (ref : UnitRef) : Nat × Nat := (ref.file, ref.index)

structure Paired where
  old : Option UnitRef
  new : UnitRef
  via : Match
deriving DecidableEq, Repr

structure FileUnits where
  old : List UnitRef
  new : List UnitRef

def unitRefs (file : Nat) (path : Text) (units : List Metrics.Unit) : List UnitRef :=
  units.mapIdx fun index unit => { file, index, path, unit }

def fileUnits {π : Type} (measured : List (Sides π)) : List FileUnits :=
  measured.mapIdx fun file sides =>
    { old := unitRefs file sides.path (units sides.old)
      new := unitRefs file sides.path (units sides.new) }

/-! ## By body -/

def without (units : List UnitRef) (gone : List (Nat × Nat)) : List UnitRef :=
  units.filter fun unit => !gone.contains unit.id

/-- The old units of one body for the new ones. Same names pair first, so a copy cannot take its
original's old unit. -/
def bodyGroup (olds news : List UnitRef) : List ((Nat × Nat) × UnitRef) :=
  let oldNamed := lookup (grouped (·.unit.qualname) olds)
  let partner := (grouped (·.unit.qualname) news).flatMap fun named =>
    (named.2.zip (oldNamed named.1)).map fun pair => (pair.1.id, pair.2)
  let oldRest := without olds (partner.map (·.2.id))
  let newRest := without news (partner.map (·.1))
  partner ++ (newRest.zip oldRest).map fun pair => (pair.1.id, pair.2)

/-- The pairs of one body, and the old and the new units that are left. -/
structure Pass where
  paired : List Paired
  oldLeft : List UnitRef
  newLeft : List UnitRef

def bodyPass (oldUnits newUnits : List UnitRef) : Pass :=
  let oldByBody := lookup (grouped (·.unit.bodyKey) oldUnits)
  let partner := (grouped (·.unit.bodyKey) newUnits).flatMap fun news =>
    bodyGroup (oldByBody news.1) news.2
  { paired := newUnits.filterMap fun new =>
      (filled partner new.id).map fun old => { old := some old, new, via := .body }
    newLeft := newUnits.filter fun new => (filled partner new.id).isNone
    oldLeft := without oldUnits (partner.map (·.2.id)) }

/-! ## By name and by rank -/

def ahead (x y : UnitRef) : Prop :=
  y.unit.cc < x.unit.cc ∨ x.unit.cc = y.unit.cc ∧ x.unit.startByte ≤ y.unit.startByte

instance : DecidableRel ahead := fun x y =>
  inferInstanceAs (Decidable
    (y.unit.cc < x.unit.cc ∨ x.unit.cc = y.unit.cc ∧ x.unit.startByte ≤ y.unit.startByte))

/-- The highest complexity first, and of two with one complexity the one that starts first. -/
def ranked (units : List UnitRef) : List UnitRef := units.insertionSort ahead

/-- The units of one name. A multiset by rank: ordinals shift when a same-name unit is inserted
above another, and a ranking does not. -/
def nameGroup (olds news : List UnitRef) : List Paired × List UnitRef :=
  match olds, news with
  | [old], [new] => ([{ old := some old, new, via := .name }], [])
  | olds, news =>
    let rankedOld := ranked olds
    let rankedNew := ranked news
    ((rankedOld.zip rankedNew).map fun pair =>
      { old := some pair.1, new := pair.2, via := .collision },
      rankedNew.drop rankedOld.length)

def nameAndCollisionPasses (oldLeft newLeft : List UnitRef) : List Paired × List UnitRef :=
  let oldNamed := lookup (grouped (·.unit.qualname) oldLeft)
  let groups := (grouped (·.unit.qualname) newLeft).map fun news =>
    nameGroup (oldNamed news.1) news.2
  (groups.flatMap Prod.fst, groups.flatMap Prod.snd)

/-! ## The run -/

/-- Each file pairs its own units first, so a copy beside its unchanged original is new in the other
file, and a unit moved between files is not. -/
def matchRun (files : List FileUnits) : List Paired :=
  let passes := files.map fun file => bodyPass file.old file.new
  let moved := bodyPass (passes.flatMap Pass.oldLeft) (passes.flatMap Pass.newLeft)
  let oldByFile := lookup (grouped (·.file) moved.oldLeft)
  let newByFile := lookup (grouped (·.file) moved.newLeft)
  passes.flatMap Pass.paired ++ moved.paired ++ (List.range files.length).flatMap fun file =>
    let (named, unpaired) := nameAndCollisionPasses (oldByFile file) (newByFile file)
    named ++ unpaired.map fun new => { old := none, new, via := .new }

end Agentless.Checks
