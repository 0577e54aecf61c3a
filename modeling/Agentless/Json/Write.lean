import Agentless.Json.Value
import Agentless.Library.Ascii

/-!
# A value written back as text

`written` keeps a work stack of pieces still to write, so a deeply nested value costs no recursion.
Two notations share it: JSON text and Python literal text. They differ in the words, the floats
and the strings.
-/

namespace Agentless.Json

open Ascii

section Strings

def hexDigit (value : Nat) : UInt8 :=
  if value < 10 then UInt8.ofNat (0x30 + value) else UInt8.ofNat (0x57 + value)

/-- A code unit as an escape; a unit has four digits. -/
def unitText (unit : Nat) : Bytes :=
  [backslash, lowerU, hexDigit (unit / 0x1000), hexDigit (unit / 0x100 % 0x10),
    hexDigit (unit / 0x10 % 0x10), hexDigit (unit % 0x10)]

def shortEscape (code : Nat) : Option Bytes :=
  if code = 0x22 then some [backslash, quote]
  else if code = 0x5c then some [backslash, backslash]
  else if code = 0x08 then some [backslash, lowerB]
  else if code = 0x0c then some [backslash, lowerF]
  else if code = 0x0a then some [backslash, lowerN]
  else if code = 0x0d then some [backslash, lowerR]
  else if code = 0x09 then some [backslash, lowerT]
  else none

/-- What `push_code_point` appends. -/
def codePointText (code : Nat) : Bytes :=
  match shortEscape code with
  | some escape => escape
  | none =>
    if 0x20 ≤ code ∧ code ≤ 0x7e then [UInt8.ofNat code]
    else if 0x10000 ≤ code then
      let above := code - 0x10000
      unitText (0xd800 ||| above >>> 10) ++ unitText (0xdc00 ||| above &&& 0x3ff)
    else unitText code

/-- What `push_string` appends. -/
def stringText (string : CodePointString) : Bytes :=
  quote :: (string.codePoints.flatMap codePointText ++ [quote])

end Strings

variable {φ : Type}

/-- The spellings that differ between two notations of a value. -/
structure Spelling (φ : Type) where
  null : Bytes
  true : Bytes
  false : Bytes
  float : φ → Bytes
  string : CodePointString → Bytes

/-- One piece of output still to write. -/
inductive Step (φ : Type) where
  | text (raw : Bytes)
  | key (key : CodePointString)
  | value (value : JsonValue φ)

/-- Pushes the closer, then the items last first with ", " between them. The head of the list is
the top of the stack. -/
def pushItems (pending : List (Step φ)) (closer : Bytes) (items : List (List (Step φ))) :
    List (Step φ) :=
  items.zipIdx.reverse.foldl
    (fun pending (steps, index) =>
      if index > 0 then .text [comma, space] :: (steps ++ pending) else steps ++ pending)
    (.text closer :: pending)

section Written

variable (spelling : Spelling φ)

/-- What is written of a value at once, and the pieces that wait for the rest of it. -/
def pushValue (value : JsonValue φ) (pending : List (Step φ)) : Bytes × List (Step φ) :=
  match value with
  | .null => (spelling.null, pending)
  | .bool true => (spelling.true, pending)
  | .bool false => (spelling.false, pending)
  | .int digits => (digits, pending)
  | .float number => (spelling.float number, pending)
  | .str string => (spelling.string string, pending)
  | .array items =>
    ([leftBracket], pushItems pending [rightBracket] (items.map fun item => [.value item]))
  | .object pairs =>
    ([leftBrace], pushItems pending [rightBrace]
      (pairs.map fun pair => [.key pair.1, .text [colon, space], .value pair.2]))

/-! The work that is left shrinks with every piece, which is why the loop ends. -/

noncomputable def Step.work : Step φ → Nat
  | .text _ => 1
  | .key _ => 1
  | .value json => 2 * sizeOf json

noncomputable def work (pending : List (Step φ)) : Nat := (pending.map Step.work).sum

@[simp] theorem work_nil : work ([] : List (Step φ)) = 0 := rfl

@[simp] theorem work_cons (step : Step φ) (pending : List (Step φ)) :
    work (step :: pending) = step.work + work pending := rfl

@[simp] theorem work_append (steps pending : List (Step φ)) :
    work (steps ++ pending) = work steps + work pending := by
  simp [work]

/-- Items with ", " before each. -/
def separated (items : List (List (Step φ))) : List (Step φ) :=
  items.flatMap fun steps => .text [comma, space] :: steps

theorem foldr_items (rest : List (Step φ)) (items : List (List (Step φ))) {start : Nat}
    (hstart : 0 < start) :
    (items.zipIdx start).foldr
      (fun (steps, index) pending =>
        if index > 0 then .text [comma, space] :: (steps ++ pending) else steps ++ pending) rest =
      separated items ++ rest := by
  induction items generalizing start with
  | nil => rfl
  | cons steps items ih =>
    rw [List.zipIdx_cons, List.foldr_cons, ih (Nat.succ_pos start)]
    simp [hstart, separated]

/-- The stack after a container: its items with ", " between them, its closer, and the rest. -/
theorem pushItems_eq (pending : List (Step φ)) (closer : Bytes) (items : List (List (Step φ))) :
    pushItems pending closer items =
      match items with
      | [] => .text closer :: pending
      | first :: more => first ++ (separated more ++ .text closer :: pending) := by
  rw [pushItems, List.foldl_reverse]
  cases items with
  | nil => rfl
  | cons first more =>
    rw [List.zipIdx_cons, List.foldr_cons, foldr_items _ _ (by omega)]
    rfl

theorem work_separated (items : List (List (Step φ))) :
    work (separated items) = (items.map fun steps => work steps + 1).sum := by
  induction items with
  | nil => rfl
  | cons steps items ih =>
    rw [separated, List.flatMap_cons, ← separated]
    simp only [List.cons_append, work_cons, work_append, ih, Step.work, List.map_cons,
      List.sum_cons]
    omega

theorem work_pushItems (pending : List (Step φ)) (closer : Bytes) (items : List (List (Step φ))) :
    work (pushItems pending closer items) ≤
      1 + work pending + (items.map fun steps => work steps + 1).sum := by
  rw [pushItems_eq]
  split
  · simp [Step.work]
  · simp only [work_append, work_separated, work_cons, Step.work, List.map_cons, List.sum_cons]
    omega

theorem sum_work_items (items : List (JsonValue φ)) :
    ((items.map fun item => [Step.value item]).map fun steps => work steps + 1).sum <
      2 * sizeOf items := by
  induction items with
  | nil => simp
  | cons item items ih =>
    simp only [List.map_cons, List.sum_cons, work_cons, work_nil, Step.work, List.cons.sizeOf_spec]
    omega

theorem sum_work_pairs (pairs : List (CodePointString × JsonValue φ)) :
    ((pairs.map fun pair =>
      [Step.key pair.1, .text [colon, space], .value pair.2]).map fun steps => work steps + 1).sum <
      2 * sizeOf pairs := by
  induction pairs with
  | nil => simp
  | cons pair pairs ih =>
    obtain ⟨key, item⟩ := pair
    simp only [List.map_cons, List.sum_cons, work_cons, work_nil, Step.work, List.cons.sizeOf_spec,
      Prod.mk.sizeOf_spec]
    omega

theorem work_pushValue (value : JsonValue φ) (pending : List (Step φ)) :
    work (pushValue spelling value pending).2 < 2 * sizeOf value + work pending := by
  cases value with
  | array items =>
    have hpush := work_pushItems pending [rightBracket] (items.map fun item => [Step.value item])
    have hitems := sum_work_items items
    simp only [pushValue, JsonValue.array.sizeOf_spec]
    omega
  | object pairs =>
    have hpush := work_pushItems pending [rightBrace]
      (pairs.map fun pair => [Step.key pair.1, .text [colon, space], .value pair.2])
    have hpairs := sum_work_pairs pairs
    simp only [pushValue, JsonValue.object.sizeOf_spec]
    omega
  | bool flag => cases flag <;> simp [pushValue]
  | _ => simp [pushValue]

/-- The text so far, with the pending pieces written after it. -/
def writeAll (text : Bytes) (pending : List (Step φ)) : Bytes :=
  match pending with
  | [] => text
  | .text raw :: pending => writeAll (text ++ raw) pending
  | .key key :: pending => writeAll (text ++ spelling.string key) pending
  | .value value :: pending =>
    have := work_pushValue spelling value pending
    writeAll (text ++ (pushValue spelling value pending).1) (pushValue spelling value pending).2
termination_by work pending
decreasing_by
  · simp [work, Step.work]
  · simp [work, Step.work]
  · simpa [work, Step.work] using this

def written (value : JsonValue φ) : Bytes := writeAll spelling [] [.value value]

end Written

section Notations

variable (f64 : F64 φ)

def floatValue (number : φ) : Bytes :=
  if f64.isNan number then utf8 "NaN".toList
  else if f64.isInfinite number then
    if f64.isPositive number then utf8 "Infinity".toList else utf8 "-Infinity".toList
  else f64.floatText number

def jsonText : Spelling φ where
  null := utf8 "null".toList
  true := utf8 "true".toList
  false := utf8 "false".toList
  float := floatValue f64
  string := stringText

/-- A value as one line of ASCII JSON text. -/
def valueText (value : JsonValue φ) : Bytes := written (jsonText f64) value

end Notations

end Agentless.Json
