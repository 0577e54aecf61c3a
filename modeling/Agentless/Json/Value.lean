import Agentless.Text.CodePointString

/-!
# JSON values and errors

A value holds integers as their decimal texts and floats as values of the standard library's
`f64`, which is a parameter here: the reader asks it to read a literal and the writer asks it for
the shortest text of a number.
-/

namespace Agentless.Json

/-- What the reader and the writer use of `f64`. -/
structure F64 (φ : Type) where
  parse : Bytes → Option φ
  nan : φ
  infinity : φ
  negInfinity : φ
  isNan : φ → Bool
  isInfinite : φ → Bool
  isPositive : φ → Bool
  floatText : φ → Bytes

inductive JsonValue (φ : Type) where
  | null
  | bool (flag : Bool)
  | int (digits : Bytes)
  | float (number : φ)
  | str (string : CodePointString)
  | array (items : List (JsonValue φ))
  | object (pairs : List (CodePointString × JsonValue φ))

/-- The value of the first pair whose key is the text `key`. -/
def get {φ : Type} (pairs : List (CodePointString × JsonValue φ)) (key : Text) :
    Option (JsonValue φ) :=
  (pairs.find? fun pair => pair.1.asStr = some key).map Prod.snd

inductive JsonErrorKind where
  | expectingValue
  | expectingPropertyName
  | expectingColon
  | expectingComma
  | objectTrailingComma
  | arrayTrailingComma
  | unterminatedString
  | controlCharacter
  | invalidEscape
  | invalidUnicodeEscape
  | extraData
  | byteOrderMark
  | objectTooDeep
  | arrayTooDeep
  | intTooLong (digits : Nat)
  deriving DecidableEq, Repr

/-- Why a text was refused, and where: the position in code points from its start, and the
1-based line and column. -/
structure JsonError where
  kind : JsonErrorKind
  pos : Nat
  line : Nat
  column : Nat
  deriving DecidableEq, Repr

end Agentless.Json
