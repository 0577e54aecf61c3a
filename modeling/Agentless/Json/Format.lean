import Agentless.Json.Write
import Mathlib.Data.List.Sort

/-!
# JSON text in three fixed forms

`toText` writes a value through a formatter that is driven by events: one pair of events around
each container, one before each element, key and member value, and the parts of each string. The
formatter keeps the depth and whether the open container has a value yet, for the line breaks.
The events are those of serde_json's serializer, which is not part of this repository.
-/

namespace Agentless.Json

open Ascii

/-- An integer of serde_json's number type. -/
structure SerdeNumber where
  value : Int
  range : -2 ^ 63 ≤ value ∧ value < 2 ^ 64

/-- serde_json's value tree, without floats. -/
inductive SerdeValue where
  | null
  | bool (flag : Bool)
  | number (held : SerdeNumber)
  | string (text : Text)
  | array (items : List SerdeValue)
  | object (entries : List (Text × SerdeValue))

inductive JsonForm where
  | indented
  | compact
  | packed
  deriving DecidableEq, Repr

/-- What the serializer tells its formatter. -/
inductive Event where
  | raw (bytes : Bytes)
  | fragment (text : Text)
  | charEscape (c : Char)
  | beginArray
  | endArray
  | beginArrayValue (first : Bool)
  | beginObject
  | endObject
  | beginObjectKey (first : Bool)
  | beginObjectValue

/-! ## The formatter -/

structure JsonFormatter where
  separator : Bytes
  keySeparator : Bytes
  lineBreaks : Bool
  depth : Nat
  hasValue : Bool

namespace JsonFormatter

def new : JsonForm → JsonFormatter
  | .indented => ⟨[comma], [colon, space], true, 0, false⟩
  | .compact => ⟨[comma, space], [colon, space], false, 0, false⟩
  | .packed => ⟨[comma], [colon], false, 0, false⟩

variable (formatter : JsonFormatter)

def breakLine : Bytes := newline :: (List.replicate formatter.depth [space, space]).flatten

def opened (opener : UInt8) : Bytes × JsonFormatter :=
  ([opener], { formatter with depth := formatter.depth + 1, hasValue := false })

/-- A closed container is a value of its parent, so the parent has a value after it. -/
def closed (closer : UInt8) : Bytes × JsonFormatter :=
  let outer := { formatter with depth := formatter.depth - 1 }
  let line := if outer.lineBreaks && outer.hasValue then outer.breakLine else []
  (line ++ [closer], { outer with hasValue := true })

def beginItem (first : Bool) : Bytes × JsonFormatter :=
  let formatter := { formatter with hasValue := true }
  let separator := if first then [] else formatter.separator
  (separator ++ if formatter.lineBreaks then formatter.breakLine else [], formatter)

end JsonFormatter

/-- The UTF-16 units of a character, each as an escape. -/
def unitsText (c : Char) : Bytes :=
  let code := c.toNat
  if code < 0x10000 then unitText code
  else
    let above := code - 0x10000
    unitText (0xd800 ||| above >>> 10) ++ unitText (0xdc00 ||| above &&& 0x3ff)

/-- What `write_string_fragment` writes of one character. -/
def fragmentChar (c : Char) : Bytes :=
  if ' ' ≤ c ∧ c ≤ '~' then [UInt8.ofNat c.toNat] else unitsText c

/-- The trait's own escapes, of quotes, backslashes and control characters. -/
def charEscape (c : Char) : Bytes :=
  match shortEscape c.toNat with
  | some escape => escape
  | none => unitText c.toNat

def JsonFormatter.step (formatter : JsonFormatter) : Event → Bytes × JsonFormatter
  | .raw bytes => (bytes, formatter)
  | .fragment text => (text.flatMap fragmentChar, formatter)
  | .charEscape c => (charEscape c, formatter)
  | .beginArray => formatter.opened leftBracket
  | .endArray => formatter.closed rightBracket
  | .beginArrayValue first => formatter.beginItem first
  | .beginObject => formatter.opened leftBrace
  | .endObject => formatter.closed rightBrace
  | .beginObjectKey first => formatter.beginItem first
  | .beginObjectValue => (formatter.keySeparator, formatter)

/-- The text of a run of events, and the formatter after it. -/
def JsonFormatter.run (formatter : JsonFormatter) : List Event → Bytes × JsonFormatter
  | [] => ([], formatter)
  | event :: events =>
    let (text, formatter) := formatter.step event
    let (more, formatter) := formatter.run events
    (text ++ more, formatter)

/-! ## The events of a value -/

/-- A character that the serializer does not pass on in a fragment. -/
def escapes (c : Char) : Bool := c.toNat < 0x20 || c == '"' || c == '\\'

/-- The contents of a string: the longest fragments between the characters that are escaped. -/
def contentEvents : Text → List Event
  | [] => []
  | c :: text =>
    if escapes c then .charEscape c :: contentEvents text
    else
      match contentEvents text with
      | .fragment chars :: events => .fragment (c :: chars) :: events
      | events => .fragment [c] :: events

def stringEvents (text : Text) : List Event := .raw [quote] :: (contentEvents text ++ [.raw [quote]])

def digitBytes (n : Nat) : Bytes := utf8 (Nat.toDigits 10 n)

def intText : Int → Bytes
  | .ofNat n => digitBytes n
  | .negSucc n => minus :: digitBytes (n + 1)

namespace SerdeValue

mutual

def events : SerdeValue → List Event
  | .null => [.raw (utf8 "null".toList)]
  | .bool flag => [.raw (utf8 (if flag then "true" else "false").toList)]
  | .number held => [.raw (intText held.value)]
  | .string text => stringEvents text
  | .array items => .beginArray :: (itemEvents true items ++ [.endArray])
  | .object entries => .beginObject :: (entryEvents true entries ++ [.endObject])

def itemEvents (first : Bool) : List SerdeValue → List Event
  | [] => []
  | item :: items => .beginArrayValue first :: (item.events ++ itemEvents false items)

def entryEvents (first : Bool) : List (Text × SerdeValue) → List Event
  | [] => []
  | (key, item) :: entries =>
    .beginObjectKey first ::
      (stringEvents key ++ .beginObjectValue :: (item.events ++ entryEvents false entries))

end

/-- UTF-8 byte order is code point order. -/
def keyLe (left right : Text × SerdeValue) : Bool := utf8 left.1 ≤ utf8 right.1

mutual

/-- The value with the entries of every object in the order of their keys. -/
def sorted : SerdeValue → SerdeValue
  | .array items => .array (sortedItems items)
  | .object entries => .object ((sortedEntries entries).mergeSort keyLe)
  | .null => .null
  | .bool flag => .bool flag
  | .number held => .number held
  | .string text => .string text

def sortedItems : List SerdeValue → List SerdeValue
  | [] => []
  | item :: items => item.sorted :: sortedItems items

def sortedEntries : List (Text × SerdeValue) → List (Text × SerdeValue)
  | [] => []
  | (key, item) :: entries => (key, item.sorted) :: sortedEntries entries

end

/-- The value that a form writes. -/
def inForm (value : SerdeValue) (form : JsonForm) : SerdeValue :=
  if form = .packed then value.sorted else value

/-- No map holds a key twice. -/
inductive Keyed : SerdeValue → Prop where
  | null : Keyed .null
  | bool (flag : Bool) : Keyed (.bool flag)
  | number (held : SerdeNumber) : Keyed (.number held)
  | string (text : Text) : Keyed (.string text)
  | array {items : List SerdeValue} (hitems : ∀ item ∈ items, Keyed item) : Keyed (.array items)
  | object {entries : List (Text × SerdeValue)} (hkeys : (entries.map Prod.fst).Nodup)
      (hentries : ∀ entry ∈ entries, Keyed entry.2) : Keyed (.object entries)

/-- At most `depth` containers are around any part of the value. -/
def Within : Nat → SerdeValue → Prop
  | depth + 1, .array items => ∀ item ∈ items, Within depth item
  | depth + 1, .object entries => ∀ entry ∈ entries, Within depth entry.2
  | 0, .array _ | 0, .object _ => False
  | _, .null | _, .bool _ | _, .number _ | _, .string _ => True

mutual

/-- The value as the reader of this repository holds it. -/
def json {φ : Type} : SerdeValue → JsonValue φ
  | .null => .null
  | .bool flag => .bool flag
  | .number held => .int (intText held.value)
  | .string text => .str ⟨utf8 text⟩
  | .array items => .array (jsonItems items)
  | .object entries => .object (jsonEntries entries)

def jsonItems {φ : Type} : List SerdeValue → List (JsonValue φ)
  | [] => []
  | item :: items => item.json :: jsonItems items

def jsonEntries {φ : Type} : List (Text × SerdeValue) → List (CodePointString × JsonValue φ)
  | [] => []
  | (key, item) :: entries => (⟨utf8 key⟩, item.json) :: jsonEntries entries

end

end SerdeValue

/-- A value tree: the maps in it hold each key once. -/
structure ValueTree where
  value : SerdeValue
  keyed : value.Keyed

def toText (tree : ValueTree) (form : JsonForm) : Bytes :=
  ((JsonFormatter.new form).run (tree.value.inForm form).events).1

end Agentless.Json
