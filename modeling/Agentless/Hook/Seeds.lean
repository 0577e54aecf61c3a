import Agentless.Library.AsciiText
import Agentless.Text.Word

/-!
# The seeds of a prompt

The file paths and the names that a prompt spells, by scanners over its bytes. A slice that would cut
a character is none.
-/

namespace Agentless.Hook.Seeds

open Text

def maxSeeds : Nat := 12
/-- In code points. -/
def minToken : Nat := 4
def maxTicked : Nat := 120
def maxSuffix : Nat := 6

def isAsciiUppercase (byte : UInt8) : Bool := 0x41 ≤ byte && byte ≤ 0x5a

def isAsciiLowercase (byte : UInt8) : Bool := 0x61 ≤ byte && byte ≤ 0x7a

def isAsciiDigit (byte : UInt8) : Bool := 0x30 ≤ byte && byte ≤ 0x39

def isAsciiAlphanumeric (byte : UInt8) : Bool :=
  isAsciiUppercase byte || isAsciiLowercase byte || isAsciiDigit byte

def underscore : UInt8 := 0x5f
def dot : UInt8 := 0x2e
def dash : UInt8 := 0x2d
def slash : UInt8 := 0x2f
def backtick : Char := '\x60'

/-! ## Paths -/

def isPathByte (byte : UInt8) : Bool :=
  isAsciiAlphanumeric byte || byte == underscore || byte == dot || byte == dash || byte == slash

/-- A dot with a byte before it and an alphanumeric byte after it. -/
def isSuffixDot (run : Bytes) (pos : Nat) : Bool :=
  run[pos]? == some dot && run[pos + 1]?.any isAsciiAlphanumeric

/-- The greedy match ends after the last dot of that kind, and takes at most 6 alphanumeric bytes
after it. -/
def pathEnd (run : Bytes) : Option Nat :=
  ((List.range' 1 (run.length - 1)).reverse.find? (isSuffixDot run)).map fun pos =>
    pos + 1 + (((run.drop (pos + 1)).take maxSuffix).takeWhile isAsciiAlphanumeric).length

def pathTokensFrom (prompt : Text) : Nat → Nat → Option (List Text)
  | 0, _ => none
  | fuel + 1, pos =>
    if pos < (utf8 prompt).length then
      let run := ((utf8 prompt).drop pos).takeWhile isPathByte
      if run.length = 0 then pathTokensFrom prompt fuel (pos + 1)
      else
        match pathEnd run with
        | some stop => do
          let token ← strBetween prompt pos (pos + stop)
          return token :: (← pathTokensFrom prompt fuel (pos + stop))
        | none => pathTokensFrom prompt fuel (pos + run.length)
    else some []

def pathTokens (prompt : Text) : Option (List Text) :=
  pathTokensFrom prompt ((utf8 prompt).length + 1) 0

/-! ## Names -/

/-- The text behind a backtick up to the next backtick or line feed. -/
def ticked (after : Text) : Text := after.takeWhile fun c => c != backtick && c != '\n'

/-- A backtick that opens no match is passed over by one character, so it can close nothing. -/
def backticked (rest : Text) : List Text :=
  match _h : rest.dropWhile (· != backtick) with
  | [] => []
  | _ :: after =>
    let body := ticked after
    if (after.drop body.length).head? = some backtick ∧ 1 ≤ body.length ∧
        body.length ≤ maxTicked then
      body :: backticked (after.drop (body.length + 1))
    else backticked after
termination_by rest.length
decreasing_by
  all_goals
    have hle := List.length_dropWhile_le (· != backtick) rest
    rw [_h, List.length_cons] at hle
    try rw [List.length_drop]
    omega

def isCamel (word : Bytes) : Bool :=
  match word with
  | first :: second :: rest =>
    isAsciiUppercase first && !isAsciiUppercase second && rest.any isAsciiUppercase
  | _ => false

def isSnake (word : Bytes) : Bool :=
  word.head?.any isAsciiLowercase && word.contains underscore &&
    (word.splitOn underscore).all fun part => !part.isEmpty

/-- Each class byte is a word character, so a match between two word boundaries is a whole run of
class bytes. -/
def wholeWordsFrom (accepts : UInt8 → Bool) (shape : Bytes → Bool) (prompt : Text) :
    Nat → Nat → Option Char → Option (List Text)
  | 0, _, _ => none
  | fuel + 1, pos, before => do
    match ← strFrom prompt pos with
    | [] => return []
    | next :: _ =>
      let opens := !before.any isWord
      if !(opens && (next.toNat < 256 && accepts (UInt8.ofNat next.toNat))) then
        wholeWordsFrom accepts shape prompt fuel (pos + (String.utf8EncodeChar next).length) (some next)
      else
        let run := ((utf8 prompt).drop pos).takeWhile accepts
        let stop := pos + run.length
        let after ← strFrom prompt stop
        let closes := !after.head?.any isWord
        let last ← (utf8 prompt)[stop - 1]?
        let behind ← wholeWordsFrom accepts shape prompt fuel stop (some (Char.ofNat last.toNat))
        if closes && shape run then return (← strBetween prompt pos stop) :: behind
        else return behind

def wholeWords (accepts : UInt8 → Bool) (shape : Bytes → Bool) (prompt : Text) :
    Option (List Text) :=
  wholeWordsFrom accepts shape prompt ((utf8 prompt).length + 1) 0 none

def camelCase (prompt : Text) : Option (List Text) :=
  wholeWords isAsciiAlphanumeric isCamel prompt

def snakeByte (byte : UInt8) : Bool :=
  isAsciiLowercase byte || isAsciiDigit byte || byte == underscore

def snakeCase (prompt : Text) : Option (List Text) := wholeWords snakeByte isSnake prompt

/-! ## Seeds -/

/-- No segment is empty, `.` or `..`, so the path stays below the root. -/
def belowRoot (rel : Text) : Bool :=
  (rel.splitOn '/').all fun part => !(part == [] || part == ".".toList || part == "..".toList)

def isDottedName (token : Text) : Bool :=
  match utf8 token with
  | [] => false
  | first :: rest =>
    (isAsciiUppercase first || isAsciiLowercase first || first == underscore) &&
      rest.all fun byte => isAsciiAlphanumeric byte || byte == underscore || byte == dot

def trimSlashes (token : Text) : Text := token.dropWhile (· == '/')

def stripCall (token : Text) : Text :=
  if "()".toList.isSuffixOf token then token.take (token.length - 2) else token

/-- The file paths and the dotted names among the pieces in backticks. -/
def tickedSeeds (file : Text → Bool) : List Text → List Text × List Text
  | [] => ([], [])
  | raw :: more =>
    let token := stripCall (strip raw)
    let (paths, names) := tickedSeeds file more
    if token.length < minToken then (paths, names)
    else if file (trimSlashes token) then (trimSlashes token :: paths, names)
    else if isDottedName token then (paths, token :: names)
    else (paths, names)

/-- The path seeds and the names of a prompt, in the order in which they are kept. -/
def found (prompt : Text) (isFile : Text → Bool) : Option (List Text × List Text) := do
  let file (rel : Text) : Bool := belowRoot rel && isFile rel
  let tokens ← pathTokens prompt
  let camel ← camelCase prompt
  let snake ← snakeCase prompt
  let paths := (tokens.map trimSlashes).filter file
  let (more, names) := tickedSeeds file (backticked prompt)
  let named := (camel ++ snake).filter fun word => minToken ≤ (utf8 word).length
  return (paths ++ more, names ++ named)

def seeds (prompt : Text) (isFile : Text → Bool) : Option (List Text) :=
  (found prompt isFile).map fun kept => (kept.1 ++ kept.2).eraseDups.take maxSeeds

end Agentless.Hook.Seeds
