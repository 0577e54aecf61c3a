import Agentless.Json.Course
import Agentless.Json.Scan
import Agentless.Library.Boundary
import Agentless.Library.Sequence

/-!
# The JSON reader with checked slices

The reader of `parse` once more, with what the language checks at run time: a slice of the text
has to lie within it and to start and end between two characters, a slice or an index of its bytes
has to lie within them. A `Run` is nothing when one of these checks fails, which ends the program,
and else what the reader returns. The two loops have fuel, and no fuel left is no result either.
-/

namespace Agentless.Json.Checked

open Ascii

/-- A run of the reader: nothing when it ends the program, else a result. -/
abbrev Run (α : Type) := ExceptT JsonError Option α

section Reader

variable (text : Bytes)

def bytesFrom (i : Nat) : Option Bytes := if i ≤ text.length then some (text.drop i) else none

def byteAt (i : Nat) : Option UInt8 := text[i]?

def rfind (byte : UInt8) : Option Nat :=
  (text.reverse.idxOf? byte).map fun back => text.length - 1 - back

def errorAt (kind : JsonErrorKind) (i : Nat) : Option JsonError := do
  let before ← strSlice text 0 i
  let pos := charCount before
  let column ←
    match rfind before newline with
    | none => some (pos + 1)
    | some i => (strSlice before i before.length).map charCount
  return { kind, pos, line := before.count newline + 1, column }

def fail {α : Type} (kind : JsonErrorKind) (i : Nat) : Run α := do
  let error ← errorAt text kind i
  throw error

def require (byte : UInt8) (kind : JsonErrorKind) (i : Nat) : Run Unit :=
  if peek text i = some byte then pure () else fail text kind i

/-! ## Strings -/

def lowFollows (stop : Nat) : Option Bool :=
  if stop + 6 < text.length then (bytesFrom text stop).map [backslash, lowerU].isPrefixOf
  else some false

-- The digits of an escape are read with a slice that may be missing, as in `hex4`.
def unicodeEscape (string : CodePointString) (i : Nat) : Run (CodePointString × Nat) :=
  let stop := i + 5
  if stop ≥ text.length then fail text .invalidUnicodeEscape i
  else
    match hex4 text (i + 1) with
    | none => fail text .invalidUnicodeEscape i
    | some code => do
      let lowFollows ← lowFollows text stop
      if 0xd800 ≤ code && code ≤ 0xdbff && lowFollows then
        match hex4 text (stop + 2) with
        | none => fail text .invalidUnicodeEscape (stop + 1)
        | some low =>
          if 0xdc00 ≤ low && low ≤ 0xdfff then
            pure (string.push (0x10000 + ((code - 0xd800) <<< 10) + (low - 0xdc00)), stop + 6)
          else pure (string.push code, stop)
      else pure (string.push code, stop)

def escape (begin : Nat) (string : CodePointString) (i : Nat) : Run (CodePointString × Nat) :=
  match text[i]? with
  | none => fail text .unterminatedString begin
  | some code =>
    if code = lowerU then unicodeEscape text string i
    else
      match simpleEscapes.lookup code with
      | none => fail text .invalidEscape (i - 1)
      | some unescaped => pure (string.push unescaped, i + 1)

def chunkEnd (begin i : Nat) : Run Nat := do
  match (← bytesFrom text i).findIdx? endsChunk with
  | none => fail text .unterminatedString begin
  | some offset =>
    if text[i + offset]?.any fun byte => byte == quote || byte == backslash then pure (i + offset)
    else fail text .controlCharacter (i + offset)

def stringRest (begin : Nat) : Nat → CodePointString → Nat → Run (CodePointString × Nat)
  | 0, _, _ => none
  | fuel + 1, string, i => do
    let stop ← chunkEnd text begin i
    let string := string.pushStr (← strSlice text i stop)
    let byte ← byteAt text stop
    if byte = quote then pure (string, stop + 1)
    else
      let (string, i) ← escape text begin string (stop + 1)
      stringRest begin fuel string i

def string (i : Nat) : Run (CodePointString × Nat) :=
  stringRest text i (text.length + 1) {} (i + 1)

/-! ## Numbers and words -/

section Scalars

variable {φ : Type} (f64 : F64 φ)

def digitsEnd (i : Nat) : Option Nat := do
  let rest ← bytesFrom text i
  return i + (rest.takeWhile isDigit).length

def exponentEnd (i : Nat) : Option (Option Nat) :=
  if i + 1 ≥ text.length then some none
  else do
    let mark ← byteAt text i
    if mark == lowerE || mark == upperE then
      let stop := i + 1
      let signed ←
        if stop + 1 < text.length then
          (byteAt text stop).map fun byte => byte == plus || byte == minus
        else some false
      let stop ← digitsEnd text (if signed then stop + 1 else stop)
      let last ← byteAt text (stop - 1)
      return if isDigit last then some stop else none
    else return none

def integer (literal : Bytes) (start stop : Nat) : Run (JsonValue φ × Nat) :=
  let digits := (literal.dropWhile (· == minus)).length
  if digits > maxIntDigits then fail text (.intTooLong digits) start
  else pure (.int (if literal = [minus, zero] then [zero] else literal), stop)

def wholeEnd (i : Nat) : Option (Option Nat) :=
  match text[i]? with
  | none => some none
  | some byte =>
    if 0x31 ≤ byte && byte ≤ 0x39 then (digitsEnd text (i + 1)).map some
    else if byte = zero then some (some (i + 1))
    else some none

def fractionEnd (i : Nat) : Option (Nat × Bool) :=
  if text[i]? == some point && text[i + 1]?.any isDigit then
    (digitsEnd text (i + 2)).map fun stop => (stop, true)
  else some (i, false)

def numberEnd (start : Nat) : Option (Option (Nat × Bool)) := do
  match ← wholeEnd text (start + if text[start]? = some minus then 1 else 0) with
  | none => return none
  | some stop =>
    let (stop, hasFraction) ← fractionEnd text stop
    match ← exponentEnd text stop with
    | some stop => return some (stop, true)
    | none => return some (stop, hasFraction)

def number (start : Nat) : Run (JsonValue φ × Nat) := do
  match ← (numberEnd text start : Run _) with
  | none => fail text .expectingValue start
  | some (stop, isFloat) =>
    let literal ← strSlice text start stop
    if !isFloat then integer text literal start stop
    else
      match f64.parse literal with
      | none => fail text .expectingValue start
      | some number => pure (.float number, stop)

def scalar (i : Nat) : Run (JsonValue φ × Nat) := do
  let rest ← strSlice text i text.length
  if rest.head?.any isDigit || rest.head? == some minus && rest[1]?.any isDigit then
    number text f64 i
  else
    match (constants f64).find? fun constant => constant.1.isPrefixOf rest with
    | some (word, value) => pure (value, i + word.length)
    | none => number text f64 i

end Scalars

/-! ## Containers -/

section Containers

variable {φ : Type} (f64 : F64 φ)

def itemPrefix (frame : Frame φ) (i : Nat) : Run (Frame φ × Nat) :=
  match frame with
  | .array _ => pure (frame, i)
  | .object members => do
    require text quote .expectingPropertyName i
    let (key, i) ← string text i
    let i := skipWhitespace text i
    require text colon .expectingColon i
    pure (.object { members with key }, skipWhitespace text (i + 1))

def openFrame (opened : List (Frame φ)) (frame : Frame φ) (i : Nat) :
    Run (Option (JsonValue φ) × List (Frame φ) × Nat) :=
  let shape := frame.shape
  if opened.length ≥ maxDepth then fail text shape.tooDeep i
  else
    let i := skipWhitespace text (i + 1)
    if peek text i = some shape.closer then pure (some frame.intoValue, opened, i + 1)
    else do
      let (frame, i) ← itemPrefix text frame i
      pure (none, frame :: opened, i)

def value (opened : List (Frame φ)) (i : Nat) :
    Run (Option (JsonValue φ) × List (Frame φ) × Nat) :=
  if peek text i = some quote then do
    let (string, i) ← string text i
    pure (some (.str string), opened, i)
  else if peek text i = some leftBracket then openFrame text opened (.array []) i
  else if peek text i = some leftBrace then openFrame text opened (.object {}) i
  else do
    let (value, i) ← scalar text f64 i
    pure (some value, opened, i)

def add (frame : Frame φ) (value : JsonValue φ) (i : Nat) : Run (Bool × Frame φ × Nat) :=
  let frame := frame.push value
  let comma := skipWhitespace text i
  let shape := frame.shape
  if peek text comma = some shape.closer then pure (true, frame, comma + 1)
  else if peek text comma = some Ascii.comma then
    let i := skipWhitespace text (comma + 1)
    if peek text i = some shape.closer then fail text shape.trailingComma comma
    else do
      let (frame, i) ← itemPrefix text frame i
      pure (false, frame, i)
  else fail text .expectingComma comma

def close : List (Frame φ) → JsonValue φ → Nat → Run (Option (JsonValue φ) × List (Frame φ) × Nat)
  | [], value, i => pure (some value, [], i)
  | frame :: opened, value, i => do
    match ← add text frame value i with
    | (true, frame, i) => close opened frame.intoValue i
    | (false, frame, i) => pure (none, frame :: opened, i)

def document : Nat → List (Frame φ) → Nat → Run (JsonValue φ × Nat)
  | 0, _, _ => none
  | fuel + 1, opened, i => do
    match ← value text f64 opened i with
    | (none, opened, i) => document fuel opened i
    | (some value, opened, i) =>
      match ← close text opened value i with
      | (some done, _, i) => pure (done, i)
      | (none, opened, i) => document fuel opened i

def parse : Run (JsonValue φ) := do
  if (utf8 [Char.ofNat 0xfeff]).isPrefixOf text then fail text .byteOrderMark 0
  else
    let (value, i) ← document text f64 (text.length + 1) [] (skipWhitespace text 0)
    let i := skipWhitespace text i
    if i < text.length then fail text .extraData i else pure value

end Containers

end Reader

end Agentless.Json.Checked

/-!
## Where the JSON reader finds an error

The reader only moves over ASCII bytes and over the chunks of a string, which end at one, so its
offset stays between two characters of the text. `Runs` is what that gives for each of its
functions: with checked slices it returns what it returns without, and an error names the place of
the text that offends.
-/

namespace Agentless.Json

open Ascii Course

variable {φ : Type}

/-! ## Errors and their places -/

/-- A comma, blanks and the byte that closes the container. -/
def TrailingComma (closer : UInt8) (rest : Bytes) : Prop :=
  ∃ blank more, rest = comma :: (blank ++ closer :: more) ∧ blank.all isWhitespace

/-- What stands at the place of an error of the text, of which `rest` is what goes on from there. -/
def Offends (f64 : F64 φ) (text rest : Bytes) : JsonErrorKind → Prop
  | .expectingValue =>
    ∃ opened, Stuck f64 text ⟨rest, opened, .value⟩ ∧ rest.head? ≠ some quote ∧
      ∀ depth, (Grammar.value f64 depth).run rest = none
  | .expectingPropertyName =>
    ∃ opened, Stuck f64 text ⟨rest, opened, .key⟩ ∧ rest.head? ≠ some quote
  | .expectingColon => ∃ opened, Stuck f64 text ⟨rest, opened, .colon⟩
  | .expectingComma => ∃ container opened, Stuck f64 text ⟨rest, container :: opened, .next⟩
  | .objectTrailingComma =>
    ∃ opened, Reached f64 text ⟨rest, .object :: opened, .next⟩ ∧ TrailingComma rightBrace rest
  | .arrayTrailingComma =>
    ∃ opened, Reached f64 text ⟨rest, .array :: opened, .next⟩ ∧ TrailingComma rightBracket rest
  | .unterminatedString =>
    ∃ begin stop, rest = quote :: begin ∧ InString f64 text begin stop ∧
      (stop = [] ∨ stop = [backslash])
  | .controlCharacter =>
    ∃ begin byte more, InString f64 text begin rest ∧ rest = byte :: more ∧ byte ≤ 0x1f
  | .invalidEscape =>
    ∃ begin code more, InString f64 text begin rest ∧ rest = backslash :: code :: more ∧
      code ≠ lowerU ∧ Grammar.unescaped code = none
  | .invalidUnicodeEscape =>
    ∃ begin more, InString f64 text begin (backslash :: rest) ∧ rest = lowerU :: more ∧
      (more.length ≤ 4 ∨ Grammar.unit rest = none)
  | .extraData => Stuck f64 text ⟨rest, [], .next⟩ ∧ rest ≠ []
  | .byteOrderMark => rest = text ∧ utf8 [Char.ofNat 0xfeff] <+: text
  | .objectTooDeep =>
    ∃ opened, Stuck f64 text ⟨rest, opened, .value⟩ ∧ opened.length ≥ maxDepth ∧
      rest.head? = some leftBrace
  | .arrayTooDeep =>
    ∃ opened, Stuck f64 text ⟨rest, opened, .value⟩ ∧ opened.length ≥ maxDepth ∧
      rest.head? = some leftBracket
  | .intTooLong digits =>
    ∃ opened numeral more, Stuck f64 text ⟨rest, opened, .value⟩ ∧
      Grammar.numeral rest = some (numeral, more) ∧ numeral.whole.length = digits ∧
      maxIntDigits < digits

/-- One more than the characters after the last newline. -/
def column (before : Text) : Nat := (before.reverse.takeWhile (· != '\n')).length + 1

/-- The error of a text is at the place between the two parts `before` and `after`. -/
structure Located (f64 : F64 φ) (text : Text) (error : JsonError) (before after : Text) : Prop where
  split : text = before ++ after
  offends : Offends f64 (utf8 text) (utf8 after) error.kind
  pos : error.pos = before.length
  line : error.line = 1 + before.count '\n'
  column : error.column = column before

theorem charCount_utf8 (text : Text) : charCount (utf8 text) = text.length := by
  induction text with
  | nil => rfl
  | cons c text ih =>
    obtain ⟨first, more, hencode, hfirst, hmore⟩ := utf8EncodeChar_starts c
    have hcount : charCount (String.utf8EncodeChar c) = 1 := by
      rw [hencode]
      exact (List.countP_cons_of_pos hfirst).trans (by rw [List.countP_eq_zero.mpr hmore])
    rw [utf8_cons, List.length_cons, ← ih, ← hcount]
    simp only [charCount, List.countP_append]
    omega

theorem count_newline_utf8 (text : Text) : (utf8 text).count newline = text.count '\n' :=
  count_utf8 (show ('\n' : Char).toNat < 0x80 by decide) text

theorem newline_notMem_utf8 {text : Text} (h : '\n' ∉ text) : newline ∉ utf8 text :=
  ascii_notMem_utf8 (c := '\n') (by decide) h

theorem rfind_eq_none {text : Text} (h : '\n' ∉ text) :
    Checked.rfind (utf8 text) newline = none := by
  rw [Checked.rfind, Option.map_eq_none_iff, List.idxOf?_eq_none_iff, List.mem_reverse]
  exact newline_notMem_utf8 h

theorem utf8_append_newline (text line : Text) :
    utf8 (text ++ '\n' :: line) = utf8 text ++ newline :: utf8 line := by
  rw [utf8_append, utf8_cons, utf8EncodeChar_ascii (by decide)]
  rfl

theorem rfind_eq_some {text line : Text} (h : '\n' ∉ line) :
    Checked.rfind (utf8 (text ++ '\n' :: line)) newline = some (utf8 text).length := by
  rw [Checked.rfind, utf8_append_newline, Sequence.idxOf?_reverse_append (newline_notMem_utf8 h),
    Option.map_some, List.length_append, List.length_cons]
  congr 1
  omega

/-- Either a text has no newline, or a last one. -/
theorem newline_cases (text : Text) :
    '\n' ∉ text ∨ ∃ lines line, text = lines ++ '\n' :: line ∧ '\n' ∉ line := by
  by_cases h : '\n' ∈ text
  · obtain ⟨line, lines, heq, hline⟩ := List.eq_append_cons_of_mem (List.mem_reverse.mpr h)
    refine .inr ⟨lines.reverse, line.reverse, ?_, by simpa using hline⟩
    simpa using congrArg List.reverse heq
  · exact .inl h

theorem takeWhile_ne_newline {line : Text} (h : '\n' ∉ line) (more : Text) :
    (line.reverse ++ more).takeWhile (· != '\n') = line.reverse ++ more.takeWhile (· != '\n') := by
  apply List.takeWhile_append_of_pos
  rintro c hc
  rw [bne_iff_ne]
  rintro rfl
  exact h (List.mem_reverse.mp hc)

theorem column_of_notMem {before : Text} (h : '\n' ∉ before) : column before = before.length + 1 := by
  have htake := takeWhile_ne_newline h []
  rw [List.append_nil] at htake
  simp [column, htake]

theorem column_append {line : Text} (h : '\n' ∉ line) (lines : Text) :
    column (lines ++ '\n' :: line) = line.length + 1 := by
  rw [column, List.reverse_append, List.reverse_cons, List.append_assoc, takeWhile_ne_newline h]
  simp

/-- The error that is found after `before`. -/
def errorAfter (kind : JsonErrorKind) (before : Text) : JsonError :=
  { kind, pos := before.length, line := before.count '\n' + 1, column := column before }

theorem take_utf8 (before after : Text) :
    (utf8 (before ++ after)).take (utf8 before).length = utf8 before := by
  rw [utf8_append, List.take_left]

theorem drop_utf8 (before after : Text) :
    (utf8 (before ++ after)).drop (utf8 before).length = utf8 after := by
  rw [utf8_append, List.drop_left]

theorem errorAt_eq (kind : JsonErrorKind) (before after : Text) :
    errorAt (utf8 (before ++ after)) kind (utf8 before).length = errorAfter kind before := by
  unfold errorAt errorAfter
  dsimp only
  rw [take_utf8, charCount_utf8, count_newline_utf8]
  congr 1
  rcases newline_cases before with hnone | ⟨lines, line, rfl, hline⟩
  · rw [List.idxOf?_eq_none_iff.mpr (by simpa using newline_notMem_utf8 hnone),
      column_of_notMem hnone]
  · have hlast : (utf8 (lines ++ '\n' :: line)).reverse.idxOf? newline =
        some (utf8 line).length := by
      rw [utf8_append_newline, Sequence.idxOf?_reverse_append (newline_notMem_utf8 hline)]
    have hstart : (utf8 (lines ++ '\n' :: line)).length - 1 - (utf8 line).length =
        (utf8 lines).length := by
      rw [utf8_append_newline, List.length_append, List.length_cons]
      omega
    rw [hlast, column_append hline]
    dsimp only
    rw [hstart, drop_utf8, charCount_utf8, List.length_cons]

theorem Checked.errorAt_eq (kind : JsonErrorKind) (before after : Text) :
    Checked.errorAt (utf8 (before ++ after)) kind (utf8 before).length =
      some (errorAfter kind before) := by
  have hslice : strSlice (utf8 (before ++ after)) 0 (utf8 before).length = some (utf8 before) := by
    rw [Boundary.strSlice (Boundary.zero _) ⟨before, after, rfl, rfl⟩ (Nat.zero_le _)]
    simp [slice, utf8_append]
  unfold Checked.errorAt errorAfter
  rw [hslice]
  dsimp only [Option.bind_eq_bind, Option.bind_some]
  rw [charCount_utf8, count_newline_utf8]
  rcases newline_cases before with hnone | ⟨lines, line, rfl, hline⟩
  · rw [rfind_eq_none hnone, column_of_notMem hnone]
    rfl
  · have hline' : Boundary (lines ++ '\n' :: line) (utf8 lines).length := ⟨lines, _, rfl, rfl⟩
    rw [rfind_eq_some hline, column_append hline]
    dsimp only
    rw [hline'.strSlice (Boundary.last _) hline'.le, slice, drop_utf8,
      List.take_of_length_le (by simp [utf8_append]), Option.map_some, charCount_utf8,
      List.length_cons]
    rfl

/-! ## Runs -/

/-- The run ends, with the result of the reader without checks: a value with the property `post`, or
an error at its place. -/
def Runs {α : Type} (f64 : F64 φ) (text : Text) (run : Checked.Run α) (result : Except JsonError α)
    (post : α → Prop) : Prop :=
  run = some result ∧
    match result with
    | .ok value => post value
    | .error error => ∃ before after, Located f64 text error before after

namespace Runs

variable {α β : Type} {f64 : F64 φ} {text : Text}

theorem pure {value : α} {post : α → Prop} (h : post value) :
    Runs f64 text (Pure.pure value) (.ok value) post := ⟨rfl, h⟩

theorem fail {kind : JsonErrorKind} {i : Nat} {post : α → Prop} (hi : Boundary text i)
    (hoffends : Offends f64 (utf8 text) ((utf8 text).drop i) kind) :
    Runs f64 text (Checked.fail (utf8 text) kind i) (.error (errorAt (utf8 text) kind i)) post := by
  obtain ⟨before, after, rfl, rfl⟩ := hi
  rw [drop_utf8] at hoffends
  refine ⟨?_, before, after, ?_⟩
  · rw [Checked.fail, Checked.errorAt_eq, errorAt_eq]
    rfl
  · rw [errorAt_eq]
    exact ⟨rfl, hoffends, rfl, Nat.add_comm _ _, rfl⟩

theorem bind {run : Checked.Run α} {result : Except JsonError α} {post : α → Prop}
    {next : α → Checked.Run β} {next' : α → Except JsonError β} {post' : β → Prop}
    (h : Runs f64 text run result post)
    (hnext : ∀ value, result = .ok value → post value →
      Runs f64 text (next value) (next' value) post') :
    Runs f64 text (run >>= next) (result >>= next') post' := by
  obtain ⟨rfl, hresult⟩ := h
  cases result with
  | error error => exact ⟨rfl, hresult⟩
  | ok value => exact hnext value rfl hresult

theorem lift {found : Option α} {value : α} {next : α → Checked.Run β}
    {result : Except JsonError β} {post : β → Prop} (hfound : found = some value)
    (hnext : Runs f64 text (next value) result post) :
    Runs f64 text ((found : Checked.Run α) >>= next) result post := by
  subst hfound
  exact hnext

end Runs

end Agentless.Json
