import Mathlib.Data.Finset.Dedup
import Agentless.Text.Word

/-!
# The tokenizer of the source lines

The scanner of Python code that the line counts use. It keeps the lines on which a counted token
starts, a stack of indentations, and the f-strings it is in.
-/

namespace Agentless.Metrics.Tokenize

def maxIndent : Nat := 100
def maxLevel : Nat := 200
def maxFstringLevel : Nat := 150
def maxExprNesting : Int := 3
def tabSize : Nat := 8
def unexpectedEof : Text := "unexpected EOF in multi-line statement".toList
def formatSpecNewline : Text :=
  "f-string: newlines are not allowed in format specifiers for single quoted f-strings".toList

inductive TokenizeErrorKind where
  | token | indentation | tab
deriving DecidableEq, Repr

structure TokenizeError where
  kind : TokenizeErrorKind
  message : Text
deriving DecidableEq, Repr

/-- Why a scan ends early. Only the first reason is a result of the source; at the other two the
program would panic. -/
inductive Halt where
  | error (error : TokenizeError)
  /-- An `expect` does not hold. -/
  | expected
  /-- A subtraction of lines goes below zero. -/
  | underflow
deriving DecidableEq, Repr

def tokenError (message : Text) : TokenizeError := ⟨.token, message⟩

def indentationError (message : Text) : TokenizeError := ⟨.indentation, message⟩

def tabError : TokenizeError :=
  ⟨.tab, "inconsistent use of tabs and spaces in indentation".toList⟩

def fail {α : Type} (error : TokenizeError) : Except Halt α := .error (.error error)

/-! ## Characters -/

def isHexDigit (c : Char) : Bool :=
  c.isDigit || ('a' ≤ c && c ≤ 'f') || ('A' ≤ c && c ≤ 'F')

def isOctalDigit (c : Char) : Bool := '0' ≤ c && c ≤ '7'

def isBinaryDigit (c : Char) : Bool := c == '0' || c == '1'

def isNameStart (c : Char) : Bool := c.isAlpha || c == '_' || 128 ≤ c.toNat

def isNameChar (c : Char) : Bool := isNameStart c || c.isDigit

def isAsciiControl (c : Char) : Bool := c.toNat < 32 || c.toNat == 127

/-- The code point in upper-case hexadecimal digits, at least four. -/
def hexCode (c : Char) : Text :=
  let digits := (Nat.toDigits 16 c.toNat).map Char.toUpper
  List.replicate (4 - digits.length) '0' ++ digits

def radix : Option Char → Text × (Char → Bool)
  | some 'x' | some 'X' => ("hexadecimal".toList, isHexDigit)
  | some 'o' | some 'O' => ("octal".toList, isOctalDigit)
  | _ => ("binary".toList, isBinaryDigit)

def radixError (name : Text) (found : Option Char) : TokenizeError :=
  match found with
  | some c =>
    if c.isDigit then
      tokenError ("invalid digit '".toList ++ c :: "' in ".toList ++ name ++ " literal".toList)
    else tokenError ("invalid ".toList ++ name ++ " literal".toList)
  | none => tokenError ("invalid ".toList ++ name ++ " literal".toList)

/-! ## The buffer -/

def stripLast (c : Char) (text : Text) : Text :=
  if text.getLast? = some c then text.dropLast else text

/-- Every line ends in one line feed. A line with a null character stops the scan. -/
def scanLines : List Text → List Char × Bool
  | [] => ([], false)
  | piece :: pieces =>
    if piece.contains '\x00' then ([], true)
    else
      let (chars, cutAtNull) := scanLines pieces
      (stripLast '\r' (stripLast '\n' piece) ++ '\n' :: chars, cutAtNull)

def scanBuffer (source : Text) : List Char × Bool := scanLines (Text.splitlines source true)

structure FString where
  quote : Char
  size : Nat
  raw : Bool
  inLiteral : Bool
  brackets : Int
  /-- The depth of the open replacement field, from 0; -1 in the top-level literal text. -/
  fields : Int
  formatSpec : Bool
deriving DecidableEq, Repr

def FString.inFormatSpec (fstring : FString) : Bool := fstring.formatSpec && 0 ≤ fstring.fields

structure Prefix where
  len : Nat
  quote : Char
  fstring : Bool
  raw : Bool
deriving DecidableEq, Repr

structure Scanner where
  chars : List Char
  cutAtNull : Bool
  pos : Nat
  line : Nat
  level : Nat
  atLineStart : Bool
  indents : List (Nat × Nat)
  fstrings : List FString
  lines : List Nat
deriving DecidableEq, Repr

namespace Scanner

def new (source : Text) : Scanner where
  chars := (scanBuffer source).1
  cutAtNull := (scanBuffer source).2
  pos := 0
  line := 1
  level := 0
  atLineStart := true
  indents := [(0, 0)]
  fstrings := []
  lines := []

/-! ## Reading -/

def peek (s : Scanner) : Option Char := s.chars[s.pos]?

def peekAt (s : Scanner) (offset : Nat) : Option Char := s.chars[s.pos + offset]?

def bump (s : Scanner) : Scanner :=
  match s.peek with
  | some c => { s with line := s.line + (if c = '\n' then 1 else 0), pos := s.pos + 1 }
  | none => s

def skip (s : Scanner) (count : Nat) : Scanner := bump^[count] s

/-- How many characters are left. -/
def left (s : Scanner) : Nat := s.chars.length - s.pos

theorem left_bump_lt {s : Scanner} {c : Char} (h : s.peek = some c) : s.bump.left < s.left := by
  obtain ⟨hpos, -⟩ := List.getElem?_eq_some_iff.mp h
  rw [bump, h]
  exact Nat.sub_lt_sub_left hpos (Nat.lt_succ_self s.pos)

theorem left_bump_le (s : Scanner) : s.bump.left ≤ s.left := by
  cases h : s.peek with
  | none => rw [bump, h]
  | some c => exact Nat.le_of_lt (left_bump_lt h)

def skipWhile (accept : Char → Bool) (s : Scanner) : Scanner :=
  match _h : s.peek with
  | some c => if accept c then skipWhile accept s.bump else s
  | none => s
termination_by s.left
decreasing_by exact left_bump_lt _h

theorem left_skipWhile_le (accept : Char → Bool) (s : Scanner) :
    (s.skipWhile accept).left ≤ s.left := by
  fun_induction skipWhile accept s with
  | case1 s c _ _ ih => exact ih.trans (left_bump_le s)
  | case2 => exact Nat.le_refl _
  | case3 => exact Nat.le_refl _

theorem left_skipWhile_lt {accept : Char → Bool} {s : Scanner} {c : Char} (h : s.peek = some c)
    (haccept : accept c = true) : (s.skipWhile accept).left < s.left := by
  rw [skipWhile, h]
  dsimp only
  rw [if_pos haccept]
  exact Nat.lt_of_le_of_lt (left_skipWhile_le accept s.bump) (left_bump_lt h)

def atQuotes (s : Scanner) (quote : Char) (size : Nat) : Bool :=
  (List.range size).all fun offset => s.peekAt offset == some quote

def countLine (s : Scanner) (line : Nat) : Scanner :=
  if s.lines.getLast? ≠ some line then { s with lines := s.lines ++ [line] } else s

def count (s : Scanner) : Scanner := s.countLine s.line

/-- At the end of input the scanner has passed the last line feed. -/
def detectedLine (s : Scanner) : Except Halt Nat :=
  let passed := if s.peek.isNone then 1 else 0
  if passed ≤ s.line then .ok (s.line - passed) else .error .underflow

def eofError (s : Scanner) (error : TokenizeError) : TokenizeError :=
  if s.cutAtNull then tokenError "source code cannot contain null bytes".toList else error

/-- The f-string paths run only while an f-string is open. -/
def changeTop (s : Scanner) (change : FString → FString) : Except Halt Scanner :=
  match s.fstrings.getLast? with
  | some top => .ok { s with fstrings := s.fstrings.dropLast ++ [change top] }
  | none => .error .expected

/-! ## Indentation -/

def continuation (s : Scanner) : Except Halt Scanner :=
  let s := s.bump
  if s.peek ≠ some '\n' then
    fail (tokenError "unexpected character after line continuation character".toList)
  else
    let s := s.bump
    if s.peek.isNone then fail (s.eofError (tokenError unexpectedEof)) else .ok s

theorem left_continuation_lt {s t : Scanner} {c : Char} (hpeek : s.peek = some c)
    (h : s.continuation = .ok t) : t.left < s.left := by
  unfold continuation at h
  dsimp only at h
  split_ifs at h
  · cases h
  · cases h
  · obtain rfl := Except.ok.inj h
    exact Nat.lt_of_le_of_lt (left_bump_le s.bump) (left_bump_lt hpeek)

/-- The columns of an indentation as they are read: with tabs to a multiple of the tab size, with
tabs as one, and the column of the first backslash past column 0. -/
structure Columns where
  col : Nat
  alt : Nat
  continuedAt : Nat
deriving DecidableEq, Repr

def indentLoop (columns : Columns) (s : Scanner) : Except Halt (Columns × Scanner) :=
  match _hpeek : s.peek with
  | some ' ' => indentLoop { columns with col := columns.col + 1, alt := columns.alt + 1 } s.bump
  | some '\t' =>
    indentLoop { columns with
      col := (columns.col / tabSize + 1) * tabSize, alt := columns.alt + 1 } s.bump
  | some '\x0c' => indentLoop { columns with col := 0, alt := 0 } s.bump
  | some '\\' =>
    -- The first backslash past column 0 fixes the indentation of the logical line.
    let columns :=
      if columns.continuedAt = 0 then { columns with continuedAt := columns.col } else columns
    match _h : s.continuation with
    | .ok t => indentLoop columns t
    | .error halt => .error halt
  | _ => .ok (columns, s)
termination_by s.left
decreasing_by
  · exact left_bump_lt _hpeek
  · exact left_bump_lt _hpeek
  · exact left_bump_lt _hpeek
  · exact left_continuation_lt _hpeek _h

def indentColumns (s : Scanner) : Except Halt ((Nat × Nat) × Scanner) := do
  let (columns, s) ← indentLoop ⟨0, 0, 0⟩ s
  if columns.continuedAt = 0 then return ((columns.col, columns.alt), s)
  else return ((columns.continuedAt, columns.continuedAt), s)

/-- The indent stack never pops its first entry. -/
def indentTop (indents : List (Nat × Nat)) : Except Halt (Nat × Nat) :=
  match indents.getLast? with
  | some top => .ok top
  | none => .error .expected

def popIndents (col : Nat) (indents : List (Nat × Nat)) : Except Halt (List (Nat × Nat)) :=
  if _h : 1 < indents.length then do
    let top ← indentTop indents
    if col < top.1 then popIndents col indents.dropLast else return indents
  else return indents
termination_by indents.length
decreasing_by
  rw [List.length_dropLast]
  omega

def checkIndent (s : Scanner) (col alt : Nat) : Except Halt Scanner := do
  let (topCol, topAlt) ← indentTop s.indents
  if topCol < col then
    if maxIndent ≤ s.indents.length then
      fail (indentationError "too many levels of indentation".toList)
    else if alt ≤ topAlt then fail tabError
    else return { s with indents := s.indents ++ [(col, alt)] }
  else
    let indents ← popIndents col s.indents
    let (topCol, topAlt) ← indentTop indents
    if col ≠ topCol then
      fail (indentationError "unindent does not match any outer indentation level".toList)
    else if alt ≠ topAlt then fail tabError
    else return { s with indents }

def indentation (s : Scanner) : Except Halt Scanner := do
  let ((col, alt), s) ← s.indentColumns
  if s.peek = some '#' ∨ s.peek = some '\n' ∨ 0 < s.level then return s
  else s.checkIndent col alt

def endOfInput (s : Scanner) : Except Halt PUnit :=
  if 0 < s.level ∨ s.cutAtNull then fail (s.eofError (tokenError unexpectedEof)) else .ok ()

/-! ## Strings -/

def openQuote (s : Scanner) (quote : Char) : Nat × Scanner :=
  let size := if s.atQuotes quote 3 then 3 else 1
  (size, s.skip size)

/-- Whether the escaped character is the quote. -/
def skipEscape (s : Scanner) (quote : Char) : Bool × Scanner :=
  let s := s.bump
  (s.peek == some quote, s.bump)

def unterminatedString (s : Scanner) (quote : Char) (size : Nat) (escapedQuote : Bool) :
    Except Halt TokenizeError := do
  if s.fstrings.getLast?.any fun fstring => fstring.quote = quote ∧ fstring.size = size then
    return tokenError "f-string: expecting '\x7d'".toList
  else if size = 3 then return tokenError "EOF in multi-line string".toList
  else
    let hint :=
      if escapedQuote then "; perhaps you escaped the end quote?".toList else []
    let line ← s.detectedLine
    return tokenError ("unterminated string literal (detected at line ".toList ++
      Nat.toDigits 10 line ++ ')' :: hint)

theorem left_skipEscape_lt {s : Scanner} {c : Char} (quote : Char) (h : s.peek = some c) :
    (s.skipEscape quote).2.left < s.left :=
  Nat.lt_of_le_of_lt (left_bump_le s.bump) (left_bump_lt h)

def stringLoop (quote : Char) (size : Nat) (escapedQuote : Bool) (s : Scanner) :
    Except Halt Scanner :=
  if s.atQuotes quote size then .ok (s.skip size)
  else
    match _h : s.peek with
    | none => do fail (s.eofError (← s.unterminatedString quote size escapedQuote))
    | some c =>
      if c = '\n' ∧ size = 1 then do fail (← s.unterminatedString quote size escapedQuote)
      else if c = '\\' then
        stringLoop quote size (escapedQuote || (s.skipEscape quote).1) (s.skipEscape quote).2
      else stringLoop quote size escapedQuote s.bump
termination_by s.left
decreasing_by
  · exact left_skipEscape_lt quote _h
  · exact left_bump_lt _h

def stringBody (s : Scanner) (quote : Char) : Except Halt Scanner :=
  let (size, s) := s.openQuote quote
  stringLoop quote size false s

def string (s : Scanner) (quote : Char) : Except Halt Scanner := s.count.stringBody quote

/-! ## Numbers -/

def peekDigit (s : Scanner) : Bool := s.peek.any Char.isDigit

def decimalDigits (s : Scanner) : Except Halt Scanner :=
  let after := s.skipWhile Char.isDigit
  if h : after.peek = some '_' then
    if after.bump.peekDigit then
      have : after.bump.left < s.left :=
        Nat.lt_of_lt_of_le (left_bump_lt h) (left_skipWhile_le Char.isDigit s)
      decimalDigits after.bump
    else fail (tokenError "invalid decimal literal".toList)
  else .ok after
termination_by s.left

def exponent (s : Scanner) : Except Halt Scanner :=
  if s.peek = some 'e' ∨ s.peek = some 'E' then
    let sign := if s.peekAt 1 = some '+' ∨ s.peekAt 1 = some '-' then 1 else 0
    if (s.peekAt (1 + sign)).any Char.isDigit then (s.skip (1 + sign)).decimalDigits
    -- Without a sign, the `e` starts the next token.
    else if sign = 1 then fail (tokenError "invalid decimal literal".toList)
    else .ok s
  else .ok s

def radixLoop (name : Text) (isDigit : Char → Bool) (s : Scanner) : Except Halt Scanner :=
  let behind := if s.peek = some '_' then s.bump else s
  match h : behind.peek with
  | some c =>
    if hdigit : isDigit c then
      let after := behind.skipWhile isDigit
      if after.peek = some '_' then
        have : after.left < s.left := by
          have hbehind : behind.left ≤ s.left := by
            unfold behind
            split_ifs
            · exact left_bump_le s
            · exact Nat.le_refl _
          exact Nat.lt_of_lt_of_le (left_skipWhile_lt h hdigit) hbehind
        radixLoop name isDigit after
      else if after.peekDigit then fail (radixError name after.peek)
      else .ok after
    else fail (radixError name behind.peek)
  | none => fail (radixError name behind.peek)
termination_by s.left

def radixNumber (s : Scanner) : Except Halt Scanner :=
  let s := s.bump
  let (name, isDigit) := radix s.peek
  radixLoop name isDigit s.bump

/-- The point of a decimal number and the digits behind it. -/
def fraction (s : Scanner) : Except Halt Scanner :=
  if s.peek = some '.' then
    if s.bump.peekDigit then s.bump.decimalDigits else .ok s.bump
  else .ok s

def number (s : Scanner) : Except Halt Scanner := do
  let s := s.count
  if s.peek = some '0' ∧ (s.peekAt 1).any (['x', 'X', 'o', 'O', 'b', 'B'].contains ·) then
    s.radixNumber
  else
    let s ← s.decimalDigits
    let s ← s.fraction
    let s ← s.exponent
    return if s.peek = some 'j' ∨ s.peek = some 'J' then s.bump else s

/-! ## Brackets and f-strings -/

def isQuote (c : Char) : Bool := c == '\'' || c == '"'

def prefixLetters : List Text :=
  ["b", "r", "u", "f", "br", "rb", "fr", "rf"].map String.toList

def stringPrefix (s : Scanner) : Option Prefix := do
  let len ← [1, 2].find? fun offset => (s.peekAt offset).any isQuote
  let letters := ((s.chars.drop s.pos).take len).map Char.toLower
  if prefixLetters.contains letters then
    let quote ← s.peekAt len
    return { len, quote, fstring := letters.contains 'f', raw := letters.contains 'r' }
  else none

def fstringStart (s : Scanner) (found : Prefix) : Except Halt Scanner :=
  let (size, s) := (s.skip found.len).openQuote found.quote
  if maxFstringLevel ≤ s.fstrings.length + 1 then
    fail (tokenError "too many nested f-strings".toList)
  else
    .ok { s with
      fstrings := s.fstrings ++
        [{ quote := found.quote
           size
           raw := found.raw
           inLiteral := true
           brackets := 0
           fields := -1
           formatSpec := false }] }

def nameOrString (s : Scanner) : Except Halt Scanner :=
  let s := s.count
  match s.stringPrefix with
  | some found =>
    if found.fstring then s.fstringStart found else (s.skip found.len).stringBody found.quote
  | none => .ok (s.skipWhile isNameChar)

def startsFormatSpec (s : Scanner) : Bool :=
  s.fstrings.getLast?.any fun fstring =>
    0 ≤ fstring.fields ∧ fstring.brackets - 1 = fstring.fields

def openBracket (s : Scanner) : Except Halt Scanner :=
  if maxLevel ≤ s.level then fail (tokenError "too many nested parentheses".toList)
  else
    let s := { s with level := s.level + 1 }
    match s.fstrings.getLast? with
    | some top =>
      .ok { s with
        fstrings := s.fstrings.dropLast ++ [{ top with brackets := top.brackets + 1 }] }
    | none => .ok s

def closeBracket (s : Scanner) (c : Char) : Except Halt Scanner :=
  let s := { s with level := s.level - 1 }
  match s.fstrings.getLast? with
  | none => .ok s
  | some top =>
    if c = '}' ∧ top.brackets = 0 then
      fail (tokenError "f-string: single '\x7d' is not allowed".toList)
    else
      let top := { top with brackets := top.brackets - 1 }
      if top.brackets < 0 then
        fail (tokenError ("f-string: unmatched '".toList ++ [c, '\'']))
      else
        let top :=
          if c = '}' ∧ top.brackets = top.fields then
            { top with fields := top.fields - 1, inLiteral := true, formatSpec := false }
          else top
        .ok { s with fstrings := s.fstrings.dropLast ++ [top] }

def bracket (s : Scanner) (c : Char) : Except Halt Scanner :=
  if c = '(' ∨ c = '[' ∨ c = '{' then s.openBracket
  else if c = ')' ∨ c = ']' ∨ c = '}' then s.closeBracket c
  else if isAsciiControl c then
    fail (tokenError ("invalid non-printable character U+".toList ++ hexCode c))
  else .ok s

def punctuation (s : Scanner) (c : Char) : Except Halt Scanner := do
  if c = ':' ∧ s.startsFormatSpec then
    s.count.bump.changeTop fun top => { top with inLiteral := true, formatSpec := true }
  else
    let s ← s.bracket c
    return s.count.bump

def openField (s : Scanner) : Except Halt Scanner := do
  let s ← s.changeTop fun top => { top with fields := top.fields + 1, inLiteral := false }
  if s.fstrings.getLast?.any fun top => maxExprNesting ≤ top.fields then
    fail (tokenError "f-string: expressions nested too deeply".toList)
  else return s

def unterminatedFstring (s : Scanner) (size : Nat) : Except Halt TokenizeError := do
  let triple := if size = 3 then "triple-quoted ".toList else []
  let line ← s.detectedLine
  return tokenError ("unterminated ".toList ++ triple ++
    "f-string literal (detected at line ".toList ++ Nat.toDigits 10 line ++ [')'])

def middleNewline (s : Scanner) (fstring : FString) : Except Halt TokenizeError :=
  if fstring.inFormatSpec then .ok (tokenError formatSpecNewline)
  else s.unterminatedFstring fstring.size

def middleOpen (s : Scanner) (fstring : FString) : Except Halt Scanner := do
  if s.peekAt 1 = some '{' ∧ !fstring.inFormatSpec then return s.skip 2
  else
    let s ← s.changeTop fun top => { top with formatSpec := false }
    s.openField

def middleClose (s : Scanner) (fstring : FString) (namedEscape : Bool) : Except Halt Scanner :=
  if namedEscape then .ok s.bump
  else if s.peekAt 1 = some '}' ∧ !fstring.inFormatSpec ∧ fstring.brackets = 0 then .ok (s.skip 2)
  else s.changeTop fun top => { top with inLiteral := false, formatSpec := false }

/-- Whether the escape names a character in braces. -/
def middleEscape (s : Scanner) (raw : Bool) : Bool × Scanner :=
  let s := s.bump
  if s.peek = some '{' ∨ s.peek = some '}' then (false, s)
  else if s.peek = some 'N' ∧ !raw then
    let s := s.bump
    if s.peek = some '{' then (true, s.bump) else (false, s)
  else (false, s.bump)

theorem left_middleEscape_lt {s : Scanner} {c : Char} (raw : Bool) (h : s.peek = some c) :
    (s.middleEscape raw).2.left < s.left := by
  have hfirst := left_bump_lt h
  have hsecond := left_bump_le s.bump
  have hthird := left_bump_le s.bump.bump
  unfold middleEscape
  dsimp only
  split_ifs <;> dsimp only <;> omega

/-- The literal text up to the quotes or a brace. -/
def middleLoop (fstring : FString) (namedEscape : Bool) (s : Scanner) : Except Halt Scanner :=
  if s.atQuotes fstring.quote fstring.size then .ok s
  else
    match _h : s.peek with
    | none => do fail (s.eofError (← s.unterminatedFstring fstring.size))
    | some c =>
      if c = '\n' ∧ fstring.size = 1 then do fail (← s.middleNewline fstring)
      else if c = '{' then s.middleOpen fstring
      else if c = '}' then s.middleClose fstring namedEscape
      else if c = '\\' then
        middleLoop fstring (namedEscape || (s.middleEscape fstring.raw).1)
          (s.middleEscape fstring.raw).2
      else middleLoop fstring namedEscape s.bump
termination_by s.left
decreasing_by
  · exact left_middleEscape_lt fstring.raw _h
  · exact left_bump_lt _h

def fstringMiddle (s : Scanner) (fstring : FString) : Except Halt Scanner := do
  let start := s.pos
  let line := s.line
  let s ← s.middleLoop fstring false
  return if start < s.pos then s.countLine line else s

def fstringPart (s : Scanner) (fstring : FString) : Except Halt Scanner :=
  if s.peek = some '{' ∧ s.peekAt 1 ≠ some '{' then s.openField
  else if s.atQuotes fstring.quote fstring.size then
    let s := s.count.skip fstring.size
    .ok { s with fstrings := s.fstrings.dropLast }
  else s.fstringMiddle fstring

/-! ## Tokens -/

def comment (s : Scanner) : Scanner := s.skipWhile fun c => c ≠ '\n'

def newline (s : Scanner) : Scanner := { s.bump with atLineStart := true }

def skipSpaces (s : Scanner) : Scanner := s.skipWhile fun c => c == ' ' || c == '\t' || c == '\x0c'

def token (s : Scanner) (c : Char) : Except Halt Scanner :=
  if c = '#' then .ok s.comment
  else if c = '\n' then .ok s.newline
  else if c = '\\' then s.continuation
  else if isQuote c then s.string c
  else if c.isDigit then s.number
  else if isNameStart c then s.nameOrString
  else s.punctuation c

/-- The indentation, where a line starts. -/
def lineStart (s : Scanner) : Except Halt Scanner :=
  if s.atLineStart then { s with atLineStart := false }.indentation else .ok s

/-- Whether a token was read, and the scanner behind it. -/
def normalToken (s : Scanner) : Except Halt (Bool × Scanner) := do
  let s ← s.lineStart
  let s := s.skipSpaces
  match s.peek with
  | none =>
    s.endOfInput
    return (false, s)
  | some c => return (true, ← s.token c)

def nextToken (s : Scanner) : Except Halt (Bool × Scanner) :=
  match s.fstrings.getLast? with
  | some fstring =>
    if fstring.inLiteral then do return (true, ← s.fstringPart fstring) else s.normalToken
  | none => s.normalToken

/-- The lines of at most `fuel` tokens; `none` when the input does not end by then. -/
def run : Nat → Scanner → Option (Except Halt (List Nat))
  | 0, _ => none
  | fuel + 1, s =>
    match s.nextToken with
    | .ok (true, s) => run fuel s
    | .ok (false, s) => some (.ok s.lines)
    | .error halt => some (.error halt)

end Scanner

/-- The line numbers on which a counted token of `source` starts, or why there are none. -/
def pythonSloc (source : Text) (fuel : Nat) : Option (Except Halt (Finset Nat)) :=
  ((Scanner.new source).run fuel).map fun lines => lines.map List.toFinset

end Agentless.Metrics.Tokenize
