import Agentless.Json.Value
import Agentless.Library.Ascii
import Agentless.Library.Fallible
import Agentless.Library.Boundary

/-!
# The JSON reader

The reader of `parse` keeps a byte offset into the UTF-8 text. Open containers wait on a stack of
frames: `value` reads a scalar or opens a container, `close` adds a finished value to the frames
that end with it, and `document` runs the two in turn until no frame is open. Every step that
returns moves the offset on, which is why the loops end.
-/

namespace Agentless.Json

open Ascii

-- One more level ends the reference decoder with a recursion error.
def maxDepth : Nat := 9998

def maxIntDigits : Nat := 4300

/-- The object being read: its pairs, the position of each key among them, and the key whose value
comes next. -/
structure Object (φ : Type) where
  pairs : List (CodePointString × JsonValue φ) := []
  slots : List (CodePointString × Nat) := []
  key : CodePointString := {}

inductive Frame (φ : Type) where
  | array (items : List (JsonValue φ))
  | object (members : Object φ)

/-- How a container closes and what is said of one that is malformed. -/
structure Shape where
  closer : UInt8
  trailingComma : JsonErrorKind
  tooDeep : JsonErrorKind

def arrayShape : Shape := ⟨rightBracket, .arrayTrailingComma, .arrayTooDeep⟩

def objectShape : Shape := ⟨rightBrace, .objectTrailingComma, .objectTooDeep⟩

section Frames

variable {φ : Type}

/-- A repeated key keeps its first position and takes the last value. -/
def Object.insert (object : Object φ) (value : JsonValue φ) : Object φ :=
  match object.slots.lookup object.key with
  | some slot =>
    { object with key := {}, pairs := object.pairs.modify slot fun pair => (pair.1, value) }
  | none =>
    { key := {}, slots := (object.key, object.pairs.length) :: object.slots,
      pairs := object.pairs ++ [(object.key, value)] }

namespace Frame

def shape : Frame φ → Shape
  | array _ => arrayShape
  | object _ => objectShape

def push (frame : Frame φ) (value : JsonValue φ) : Frame φ :=
  match frame with
  | array items => array (items ++ [value])
  | object members => object (members.insert value)

def intoValue : Frame φ → JsonValue φ
  | array items => .array items
  | object members => .object members.pairs

end Frame

end Frames

def simpleEscapes : List (UInt8 × Nat) :=
  [(quote, 0x22), (backslash, 0x5c), (slash, 0x2f), (lowerB, 0x08), (lowerF, 0x0c),
    (lowerN, 0x0a), (lowerR, 0x0d), (lowerT, 0x09)]

def isWhitespace (byte : UInt8) : Bool :=
  byte == space || byte == tab || byte == newline || byte == carriageReturn

/-- The number of characters of valid UTF-8: its bytes that continue no character. -/
def charCount (bytes : Bytes) : Nat := bytes.countP fun byte => byte &&& 0xc0 != 0x80

section Reader

variable (text : Bytes)

def peek (i : Nat) : Option UInt8 := text[i]?

def skipWhitespace (i : Nat) : Nat := i + ((text.drop i).takeWhile isWhitespace).length

def errorAt (kind : JsonErrorKind) (i : Nat) : JsonError :=
  let before := text.take i
  let pos := charCount before
  { kind, pos, line := before.count newline + 1,
    column :=
      match before.reverse.idxOf? newline with
      | none => pos + 1
      | some back => charCount (before.drop (before.length - 1 - back)) }

def require (byte : UInt8) (kind : JsonErrorKind) (i : Nat) : Except JsonError Unit :=
  if peek text i = some byte then .ok () else .error (errorAt text kind i)

/-! ## Strings -/

def hex4 (i : Nat) : Option Nat :=
  if i + 4 ≤ text.length then
    (slice text i (i + 4)).foldlM
      (fun code digit => (hexValue digit).map fun value => code <<< 4 ||| value) 0
  else none

/-- The unicode escape whose `u` is at `i`, with a pair of surrogate escapes joined. -/
def unicodeEscape (string : CodePointString) (i : Nat) :
    Except JsonError (CodePointString × Nat) :=
  let stop := i + 5
  if stop ≥ text.length then .error (errorAt text .invalidUnicodeEscape i)
  else
    match hex4 text (i + 1) with
    | none => .error (errorAt text .invalidUnicodeEscape i)
    | some code =>
      let lowFollows :=
        stop + 6 < text.length && [backslash, lowerU].isPrefixOf (text.drop stop)
      if 0xd800 ≤ code && code ≤ 0xdbff && lowFollows then
        match hex4 text (stop + 2) with
        | none => .error (errorAt text .invalidUnicodeEscape (stop + 1))
        | some low =>
          if 0xdc00 ≤ low && low ≤ 0xdfff then
            .ok (string.push (0x10000 + ((code - 0xd800) <<< 10) + (low - 0xdc00)), stop + 6)
          else .ok (string.push code, stop)
      else .ok (string.push code, stop)

/-- The escape after the backslash at `i - 1`, in the string that begins at `begin`. -/
def escape (begin : Nat) (string : CodePointString) (i : Nat) :
    Except JsonError (CodePointString × Nat) :=
  match text[i]? with
  | none => .error (errorAt text .unterminatedString begin)
  | some code =>
    if code = lowerU then unicodeEscape text string i
    else
      match simpleEscapes.lookup code with
      | none => .error (errorAt text .invalidEscape (i - 1))
      | some unescaped => .ok (string.push unescaped, i + 1)

def endsChunk (byte : UInt8) : Bool := byte == quote || byte == backslash || byte ≤ 0x1f

/-- The offset of the next double quote or backslash. -/
def chunkEnd (begin i : Nat) : Except JsonError Nat :=
  match (text.drop i).findIdx? endsChunk with
  | none => .error (errorAt text .unterminatedString begin)
  | some offset =>
    if text[i + offset]?.any fun byte => byte == quote || byte == backslash then .ok (i + offset)
    else .error (errorAt text .controlCharacter (i + offset))

theorem chunkEnd_bounds {begin i stop : Nat} (h : chunkEnd text begin i = .ok stop) :
    i ≤ stop ∧ stop < text.length := by
  unfold chunkEnd at h
  split at h
  · cases h
  · rename_i offset hoffset
    have hlt := (List.findIdx?_eq_some_iff_findIdx_eq.mp hoffset).1
    rw [List.length_drop] at hlt
    split_ifs at h
    cases h
    omega

theorem unicodeEscape_advances {string string' : CodePointString} {i i' : Nat}
    (h : unicodeEscape text string i = .ok (string', i')) : i < i' := by
  unfold unicodeEscape at h
  dsimp only at h
  split_ifs at h
  split at h
  · cases h
  · split_ifs at h
    · split at h
      · cases h
      · split_ifs at h <;> cases h <;> omega
    · cases h
      omega

theorem escape_advances {begin i i' : Nat} {string string' : CodePointString}
    (h : escape text begin string i = .ok (string', i')) : i < i' := by
  unfold escape at h
  split at h
  · cases h
  · split_ifs at h
    · exact unicodeEscape_advances text h
    · split at h <;> cases h
      omega

/-- The rest of the string that begins at `begin`, of which `string` is read. -/
def stringRest (begin : Nat) (string : CodePointString) (i : Nat) :
    Except JsonError (CodePointString × Nat) :=
  match hchunk : chunkEnd text begin i with
  | .error error => .error error
  | .ok stop =>
    have := chunkEnd_bounds text hchunk
    let string := string.pushStr (slice text i stop)
    if text[stop]? = some quote then .ok (string, stop + 1)
    else
      match hescape : escape text begin string (stop + 1) with
      | .error error => .error error
      | .ok (string, i') =>
        have := escape_advances text hescape
        stringRest begin string i'
termination_by text.length - i

/-- The string whose opening quote is at `i`. -/
def string (i : Nat) : Except JsonError (CodePointString × Nat) := stringRest text i {} (i + 1)

theorem stringRest_advances {begin i i' : Nat} {string string' : CodePointString}
    (h : stringRest text begin string i = .ok (string', i')) : i < i' := by
  fun_induction stringRest text begin string i with
  | case1 => cases h
  | case2 string i stop hchunk =>
    have := chunkEnd_bounds text hchunk
    simp only [Except.ok.injEq, Prod.mk.injEq] at h
    omega
  | case3 => cases h
  | case4 string i stop hchunk _ string _ string'' i'' hescape _ ih =>
    have := chunkEnd_bounds text hchunk
    have := escape_advances text hescape
    have := ih h
    omega

/-! ## Numbers and words -/

section Scalars

variable {φ : Type} (f64 : F64 φ)

def digitsEnd (i : Nat) : Nat := i + ((text.drop i).takeWhile isDigit).length

/-- An exponent counts only with at least one digit. -/
def exponentEnd (i : Nat) : Option Nat :=
  if i + 1 ≥ text.length || !(text[i]?.any fun byte => byte == lowerE || byte == upperE) then none
  else
    let stop := i + 1
    let stop :=
      if stop + 1 < text.length && text[stop]?.any fun byte => byte == plus || byte == minus then
        stop + 1
      else stop
    let stop := digitsEnd text stop
    if text[stop - 1]?.any isDigit then some stop else none

/-- The integer `literal` from `start` to `stop`. -/
def integer (literal : Bytes) (start stop : Nat) : Except JsonError (JsonValue φ × Nat) :=
  let digits := (literal.dropWhile (· == minus)).length
  if digits > maxIntDigits then .error (errorAt text (.intTooLong digits) start)
  else
    -- JSON allows no leading zero, so -0 is the one integer whose text changes.
    .ok (.int (if literal = [minus, zero] then [zero] else literal), stop)

/-- The end of the digits before the point, of which only a lone one is a zero. -/
def wholeEnd (i : Nat) : Option Nat :=
  match text[i]? with
  | none => none
  | some byte =>
    if 0x31 ≤ byte && byte ≤ 0x39 then some (digitsEnd text (i + 1))
    else if byte = zero then some (i + 1)
    else none

/-- The end of the number at `start`, and whether it has a fraction or an exponent. -/
def numberEnd (start : Nat) : Option (Nat × Bool) :=
  (wholeEnd text (start + if text[start]? = some minus then 1 else 0)).map fun stop =>
    let hasFraction := text[stop]? == some point && text[stop + 1]?.any isDigit
    let stop := if hasFraction then digitsEnd text (stop + 2) else stop
    match exponentEnd text stop with
    | some stop => (stop, true)
    | none => (stop, hasFraction)

def number (start : Nat) : Except JsonError (JsonValue φ × Nat) :=
  match numberEnd text start with
  | none => .error (errorAt text .expectingValue start)
  | some (stop, isFloat) =>
    let literal := slice text start stop
    if !isFloat then integer text literal start stop
    else
      match f64.parse literal with
      | none => .error (errorAt text .expectingValue start)
      | some number => .ok (.float number, stop)

def constants : List (Bytes × JsonValue φ) :=
  [(utf8 "null".toList, .null), (utf8 "true".toList, .bool true),
    (utf8 "false".toList, .bool false), (utf8 "NaN".toList, .float f64.nan),
    (utf8 "Infinity".toList, .float f64.infinity),
    (utf8 "-Infinity".toList, .float f64.negInfinity)]

def scalar (i : Nat) : Except JsonError (JsonValue φ × Nat) :=
  let rest := text.drop i
  -- No constant starts with a digit or with '-' and a digit, so a number skips the scan.
  if rest.head?.any isDigit || rest.head? == some minus && rest[1]?.any isDigit then
    number text f64 i
  else
    match (constants f64).find? fun constant => constant.1.isPrefixOf rest with
    | some (word, value) => .ok (value, i + word.length)
    | none => number text f64 i

end Scalars

/-! ## Containers -/

section Containers

variable {φ : Type} (f64 : F64 φ)

/-- An object item starts with its key and a colon. An array item has no prefix. -/
def itemPrefix (frame : Frame φ) (i : Nat) : Except JsonError (Frame φ × Nat) :=
  match frame with
  | .array _ => .ok (frame, i)
  | .object members => do
    require text quote .expectingPropertyName i
    let (key, i) ← string text i
    let i := skipWhitespace text i
    require text colon .expectingColon i
    .ok (.object { members with key }, skipWhitespace text (i + 1))

/-- Opens a container: its value when it is empty, else it waits on the stack. -/
def openFrame (opened : List (Frame φ)) (frame : Frame φ) (i : Nat) :
    Except JsonError (Option (JsonValue φ) × List (Frame φ) × Nat) :=
  let shape := frame.shape
  if opened.length ≥ maxDepth then .error (errorAt text shape.tooDeep i)
  else
    let i := skipWhitespace text (i + 1)
    if peek text i = some shape.closer then .ok (some frame.intoValue, opened, i + 1)
    else do
      let (frame, i) ← itemPrefix text frame i
      .ok (none, frame :: opened, i)

/-- A complete value, or none after it opened a container that is not empty. -/
def value (opened : List (Frame φ)) (i : Nat) :
    Except JsonError (Option (JsonValue φ) × List (Frame φ) × Nat) :=
  if peek text i = some quote then do
    let (string, i) ← string text i
    .ok (some (.str string), opened, i)
  else if peek text i = some leftBracket then openFrame text opened (.array []) i
  else if peek text i = some leftBrace then openFrame text opened (.object {}) i
  else do
    let (value, i) ← scalar text f64 i
    .ok (some value, opened, i)

/-- Adds a value to its container, which closes after it (true) or has another item (false). -/
def add (frame : Frame φ) (value : JsonValue φ) (i : Nat) :
    Except JsonError (Bool × Frame φ × Nat) :=
  let frame := frame.push value
  let comma := skipWhitespace text i
  let shape := frame.shape
  if peek text comma = some shape.closer then .ok (true, frame, comma + 1)
  else if peek text comma = some Ascii.comma then
    let i := skipWhitespace text (comma + 1)
    if peek text i = some shape.closer then .error (errorAt text shape.trailingComma comma)
    else do
      let (frame, i) ← itemPrefix text frame i
      .ok (false, frame, i)
  else .error (errorAt text .expectingComma comma)

/-- Adds a value to the open containers, and gives the document when the last one closes. -/
def close : List (Frame φ) → JsonValue φ → Nat →
    Except JsonError (Option (JsonValue φ) × List (Frame φ) × Nat)
  | [], value, i => .ok (some value, [], i)
  | frame :: opened, value, i => do
    match ← add text frame value i with
    | (true, frame, i) => close opened frame.intoValue i
    | (false, frame, i) => .ok (none, frame :: opened, i)

/-! ## The loop -/

theorem le_skipWhitespace (i : Nat) : i ≤ skipWhitespace text i := Nat.le_add_right ..

theorem le_digitsEnd (i : Nat) : i ≤ digitsEnd text i := Nat.le_add_right ..

theorem exponentEnd_advances {i stop : Nat} (h : exponentEnd text i = some stop) : i < stop := by
  unfold exponentEnd at h
  dsimp only at h
  have := le_digitsEnd text (i + 1)
  have := le_digitsEnd text (i + 1 + 1)
  split_ifs at h <;> cases h <;> omega

theorem wholeEnd_advances {i stop : Nat} (h : wholeEnd text i = some stop) :
    i < stop ∧ i < text.length := by
  unfold wholeEnd at h
  split at h
  · cases h
  · rename_i byte hbyte
    have := (List.getElem?_eq_some_iff.mp hbyte).1
    have := le_digitsEnd text (i + 1)
    split_ifs at h <;> cases h <;> omega

variable {text f64}

theorem numberEnd_advances {start stop : Nat} {isFloat : Bool}
    (h : numberEnd text start = some (stop, isFloat)) : start < stop ∧ start < text.length := by
  obtain ⟨whole, hwhole, h⟩ := Option.map_eq_some_iff.mp h
  obtain ⟨hlt, hstart⟩ := wholeEnd_advances text hwhole
  dsimp only at h
  have hfraction : whole ≤ (if text[whole]? == some point && text[whole + 1]?.any isDigit then
      digitsEnd text (whole + 2) else whole) := by
    have := le_digitsEnd text (whole + 2)
    split_ifs <;> omega
  split at h
  · rename_i exponent hexponent
    have := exponentEnd_advances text hexponent
    cases h
    omega
  · cases h
    omega

theorem integer_end {literal : Bytes} {start stop i : Nat} {value : JsonValue φ}
    (h : integer text literal start stop = .ok (value, i)) : i = stop := by
  unfold integer at h
  dsimp only at h
  by_cases hdigits : (literal.dropWhile (· == minus)).length > maxIntDigits
  · rw [if_pos hdigits] at h
    cases h
  · rw [if_neg hdigits] at h
    cases h
    rfl

theorem number_advances {start i : Nat} {value : JsonValue φ}
    (h : number text f64 start = .ok (value, i)) : start < i ∧ start < text.length := by
  unfold number at h
  split at h
  · cases h
  · rename_i stop isFloat hend
    obtain rfl : i = stop := by
      dsimp only at h
      cases isFloat with
      | false => exact integer_end h
      | true =>
        simp only [Bool.not_true, Bool.false_eq_true, if_false] at h
        split at h <;> cases h
        rfl
    exact numberEnd_advances hend

variable (f64) in
theorem length_pos_of_mem_constants {constant : Bytes × JsonValue φ}
    (h : constant ∈ constants f64) : 0 < constant.1.length := by
  have hall : ∀ constant ∈ constants f64, 0 < constant.1.length := by
    simp [constants, utf8, String.utf8EncodeChar]
  exact hall constant h

theorem scalar_advances {i i' : Nat} {value : JsonValue φ}
    (h : scalar text f64 i = .ok (value, i')) : i < i' ∧ i < text.length := by
  unfold scalar at h
  dsimp only at h
  split_ifs at h
  · exact number_advances h
  · split at h
    · rename_i word value hfind
      cases h
      have hword : 0 < word.length :=
        length_pos_of_mem_constants f64 (List.mem_of_find?_eq_some hfind)
      have hpre : word <+: text.drop i := by simpa using List.find?_some hfind
      have hfits := hpre.length_le
      rw [List.length_drop] at hfits
      omega
    · exact number_advances h

theorem itemPrefix_advances {frame frame' : Frame φ} {i i' : Nat}
    (h : itemPrefix text frame i = .ok (frame', i')) : i ≤ i' := by
  unfold itemPrefix at h
  split at h
  · cases h
    exact Nat.le_refl _
  · obtain ⟨-, -, h⟩ := Except.bind_eq_ok_iff.mp h
    obtain ⟨⟨key, stop⟩, hkey, h⟩ := Except.bind_eq_ok_iff.mp h
    obtain ⟨-, -, h⟩ := Except.bind_eq_ok_iff.mp h
    have := stringRest_advances text hkey
    have := le_skipWhitespace text stop
    have := le_skipWhitespace text (skipWhitespace text stop + 1)
    cases h
    omega

theorem openFrame_advances {opened opened' : List (Frame φ)} {frame : Frame φ}
    {value : Option (JsonValue φ)} {i i' : Nat}
    (h : openFrame text opened frame i = .ok (value, opened', i')) : i < i' := by
  unfold openFrame at h
  dsimp only at h
  have := le_skipWhitespace text (i + 1)
  split_ifs at h
  · cases h
    omega
  · obtain ⟨⟨frame', stop⟩, hpre, h⟩ := Except.bind_eq_ok_iff.mp h
    have := itemPrefix_advances hpre
    cases h
    omega

theorem value_advances {opened opened' : List (Frame φ)} {result : Option (JsonValue φ)}
    {i i' : Nat} (h : value text f64 opened i = .ok (result, opened', i')) :
    i < i' ∧ i < text.length := by
  have hsome {byte : UInt8} (hpeek : peek text i = some byte) : i < text.length :=
    (List.getElem?_eq_some_iff.mp hpeek).1
  unfold value at h
  split_ifs at h with hquote
  · obtain ⟨⟨string, stop⟩, hstring, h⟩ := Except.bind_eq_ok_iff.mp h
    have := stringRest_advances text hstring
    have := hsome hquote
    cases h
    omega
  · exact ⟨openFrame_advances h, hsome ‹_›⟩
  · exact ⟨openFrame_advances h, hsome ‹_›⟩
  · obtain ⟨⟨value, stop⟩, hscalar, h⟩ := Except.bind_eq_ok_iff.mp h
    cases h
    exact scalar_advances hscalar

theorem add_advances {frame frame' : Frame φ} {value : JsonValue φ} {closed : Bool} {i i' : Nat}
    (h : add text frame value i = .ok (closed, frame', i')) : i ≤ i' := by
  unfold add at h
  dsimp only at h
  have := le_skipWhitespace text i
  have := le_skipWhitespace text (skipWhitespace text i + 1)
  split_ifs at h
  · cases h
    omega
  · obtain ⟨⟨frame', stop⟩, hpre, h⟩ := Except.bind_eq_ok_iff.mp h
    have := itemPrefix_advances hpre
    cases h
    omega

theorem close_advances {opened opened' : List (Frame φ)} {value : JsonValue φ}
    {result : Option (JsonValue φ)} {i i' : Nat}
    (h : close text opened value i = .ok (result, opened', i')) : i ≤ i' := by
  induction opened generalizing value i with
  | nil =>
    cases h
    exact Nat.le_refl _
  | cons frame opened ih =>
    obtain ⟨⟨closed, frame', stop⟩, hadd, h⟩ := Except.bind_eq_ok_iff.mp h
    have := add_advances hadd
    cases closed with
    | true => exact Nat.le_trans this (ih h)
    | false =>
      cases h
      exact this

variable (text f64)

/-- Runs `value` and `close` in turn until no container is open. -/
def document (opened : List (Frame φ)) (i : Nat) : Except JsonError (JsonValue φ × Nat) :=
  match hvalue : value text f64 opened i with
  | .error error => .error error
  | .ok (none, opened, i') =>
    have := value_advances hvalue
    document opened i'
  | .ok (some value, opened, i') =>
    have := value_advances hvalue
    match hclose : close text opened value i' with
    | .error error => .error error
    | .ok (some done, _, i'') => .ok (done, i'')
    | .ok (none, opened, i'') =>
      have := close_advances hclose
      document opened i''
termination_by text.length - i

/-- Reads a UTF-8 text as one JSON value with optional whitespace around it. -/
def parse : Except JsonError (JsonValue φ) := do
  if (utf8 [Char.ofNat 0xfeff]).isPrefixOf text then .error (errorAt text .byteOrderMark 0)
  else
    let (value, i) ← document text f64 [] (skipWhitespace text 0)
    let i := skipWhitespace text i
    if i < text.length then .error (errorAt text .extraData i) else .ok value

end Containers

end Reader

end Agentless.Json

/-!
## The texts of the JSON errors
-/

namespace Agentless.Json

def JsonErrorKind.text : JsonErrorKind → Text
  | expectingValue => "Expecting value".toList
  | expectingPropertyName => "Expecting property name enclosed in double quotes".toList
  | expectingColon => "Expecting ':' delimiter".toList
  | expectingComma => "Expecting ',' delimiter".toList
  | objectTrailingComma => "Illegal trailing comma before end of object".toList
  | arrayTrailingComma => "Illegal trailing comma before end of array".toList
  | unterminatedString => "Unterminated string starting at".toList
  | controlCharacter => "Invalid control character at".toList
  | invalidEscape => "Invalid \\escape".toList
  | invalidUnicodeEscape => "Invalid \\uXXXX escape".toList
  | extraData => "Extra data".toList
  | byteOrderMark => "Unexpected UTF-8 BOM (decode using utf-8-sig)".toList
  | objectTooDeep =>
    "maximum recursion depth exceeded while decoding a JSON object from a unicode string".toList
  | arrayTooDeep =>
    "maximum recursion depth exceeded while decoding a JSON array from a unicode string".toList
  | intTooLong digits =>
    "Exceeds the limit (".toList ++ Nat.toDigits 10 maxIntDigits ++
      " digits) for integer string conversion: value has ".toList ++ Nat.toDigits 10 digits ++
      " digits; use sys.set_int_max_str_digits() to increase the limit".toList

/-- The message with its place. An integer that is too long is a value error, which has none. -/
def JsonError.text (error : JsonError) : Text :=
  match error.kind with
  | .intTooLong _ => error.kind.text
  | _ =>
    error.kind.text ++ ": line ".toList ++ Nat.toDigits 10 error.line ++ " column ".toList ++
      Nat.toDigits 10 error.column ++ " (char ".toList ++ Nat.toDigits 10 error.pos ++ ")".toList

end Agentless.Json
