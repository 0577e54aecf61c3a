import Agentless.Json.Parse

/-!
# The payload of a hook

What the hooks read of the JSON document on their standard input.
-/

namespace Agentless.Hook

open Json

variable {φ : Type}

abbrev Fields (φ : Type) := List (CodePointString × JsonValue φ)

/-- An error that the gate answers by allowing the call, with no log line. -/
inductive Suppressed where
  | suppressed
  deriving DecidableEq

/-- The payload on the standard input: a value, or a text that is not one JSON document. -/
inductive Parsed (φ : Type) where
  | value (document : JsonValue φ)
  | malformed

def pastALimit : JsonErrorKind → Bool
  | .objectTooDeep | .arrayTooDeep | .intTooLong _ => true
  | _ => false

/-- The bytes of the standard input are absent when it cannot be read. An empty input reads as an
empty object. -/
def parsed (f64 : F64 φ) (stdin : Option Bytes) : Except Suppressed (Parsed φ) :=
  match stdin with
  | none => .error .suppressed
  | some raw =>
    if (CodePointString.mk raw).asStr.isNone then .error .suppressed
    else
      let text := if raw = [] then utf8 "\x7b\x7d".toList else raw
      match parse text f64 with
      | .ok value => .ok (.value value)
      | .error error => if pastALimit error.kind then .error .suppressed else .ok .malformed

/-- The field `key` when it holds a string that is not empty. -/
def textField (fields : Fields φ) (key : Text) : Option CodePointString :=
  match get fields key with
  | some (.str value) => if value.codePoints = [] then none else some value
  | _ => none

def objectField (fields : Fields φ) (key : Text) : Option (Fields φ) :=
  match get fields key with
  | some (.object value) => some value
  | _ => none

/-- An array or an object cannot be a member of a set of names. -/
def unhashable : Option (JsonValue φ) → Bool
  | some (.array _) | some (.object _) => true
  | _ => false

def asText : Option (JsonValue φ) → Option Text
  | some (.str text) => text.asStr
  | _ => none

/-- The characters, with the replacement character for each lone surrogate. -/
def lossy (text : CodePointString) : Text :=
  text.codePoints.map fun code => if code.isValidChar then Char.ofNat code else Char.ofNat 0xfffd

end Agentless.Hook
