import Agentless.Checks.Matching
import Agentless.Hook.Payload
import Agentless.Text.Word

/-!
# The records of the gate log

What a line of the log says of one hook call, once it is read.
-/

namespace Agentless.Hook.Report

/-- An integer of any size, as its decimal text: a sign only on a negative value. -/
structure LogInt where
  digits : Text
deriving DecidableEq, Repr

namespace LogInt

def magnitude (int : LogInt) : Text :=
  if int.digits.head? = some '-' then int.digits.tail else int.digits

def negative (int : LogInt) : Bool := int.digits.head? = some '-'

def cmpMagnitude (a b : LogInt) : Ordering :=
  (compare a.magnitude.length b.magnitude.length).then (List.compareLex compare a.magnitude b.magnitude)

def cmp (a b : LogInt) : Ordering :=
  match a.negative, b.negative with
  | false, true => .gt
  | true, false => .lt
  | false, false => cmpMagnitude a b
  | true, true => (cmpMagnitude a b).swap

end LogInt

inductive Outcome where
  | clean | advisory | blocked | degraded | skipped
deriving DecidableEq, Repr

inductive GatedCheck where
  | complexityDelta | contractDrift | cloneDelta
deriving DecidableEq, Repr

namespace GatedCheck

def all : List GatedCheck := [complexityDelta, contractDrift, cloneDelta]

def name : GatedCheck → Text
  | complexityDelta => "complexity_delta".toList
  | contractDrift => "contract_drift".toList
  | cloneDelta => "clone_delta".toList

end GatedCheck

inductive Tracked where
  | complexity (ccOld : Option LogInt) (threshold : LogInt)
  | contract (rule capture : CodePointString)
  | clone (key : CodePointString)
deriving DecidableEq, Repr

/-- One logged finding, with the numbers or the key that its check tracks it by. -/
structure Finding where
  check : CodePointString
  path : CodePointString
  line : LogInt
  message : CodePointString
  evidence : CodePointString
  unit : Option CodePointString := none
  via : Option Checks.Match := none
  tracked : Option Tracked := none
deriving DecidableEq, Repr

structure UnitCc where
  path : CodePointString
  unit : CodePointString
  cc : LogInt
deriving DecidableEq, Repr

structure Hit where
  path : CodePointString
  rule : CodePointString
  capture : CodePointString
deriving DecidableEq, Repr

structure Instance where
  path : CodePointString
  key : CodePointString
deriving DecidableEq, Repr

/-- The observed state of a record. A list is absent when its check measured no file. -/
structure Observed where
  unitsOverThreshold : Option (List UnitCc)
  contractKeys : Option (List Hit)
  cloneInstances : Option (List Instance)
deriving DecidableEq, Repr

/-- One hook call of the log. -/
structure Record (φ : Type) where
  lineNo : Nat
  ts : φ
  sessionId : Option CodePointString
  transcriptPath : Option CodePointString
  toolUseId : Option CodePointString
  path : Option CodePointString
  outcome : Outcome
  reason : Option CodePointString
  binary : Option CodePointString
  findings : List Finding
  observed : Option Observed

def ofText (text : Text) : CodePointString := ⟨utf8 text⟩

end Agentless.Hook.Report
