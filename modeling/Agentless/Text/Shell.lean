import Agentless.Text.CodePointString

/-!
# The words of a shell command line

Quotes and backslash escapes as a POSIX shell reads them, with no comments and no operators, over
characters or over code points.
-/

namespace Agentless.Shell

inductive ShellWordsError where
  | noClosingQuotation
  | noEscapedCharacter
  deriving DecidableEq, Repr

/-- A character or a code point. The quotes, the backslash and the separators are ASCII in both. -/
class ShellUnit (α : Type) where
  ascii : UInt8 → α

instance : ShellUnit Char := ⟨fun byte => Char.ofNat byte.toNat⟩

instance : ShellUnit Nat := ⟨UInt8.toNat⟩

variable {α : Type} [DecidableEq α] [ShellUnit α]

abbrev singleQuote : α := ShellUnit.ascii 0x27
abbrev doubleQuote : α := ShellUnit.ascii 0x22
abbrev backslash : α := ShellUnit.ascii 0x5c

def isSeparator (unit : α) : Bool :=
  [0x20, 0x09, 0x0d, 0x0a].any fun byte => unit = ShellUnit.ascii byte

/-- The text up to the closing single quote, read literally, after `word`; and what follows. -/
def singleQuoted : List α → List α → Except ShellWordsError (List α × List α)
  | [], _ => .error .noClosingQuotation
  | unit :: units, word =>
    if unit = singleQuote then .ok (word, units) else singleQuoted units (word ++ [unit])

/-- The text up to the closing double quote. A backslash escapes only a backslash or a double
quote; before any other character it stays. -/
def doubleQuoted : List α → List α → Except ShellWordsError (List α × List α)
  | [], _ => .error .noClosingQuotation
  | [unit], word =>
    if unit = doubleQuote then .ok (word, [])
    else if unit = backslash then .error .noEscapedCharacter
    else .error .noClosingQuotation
  | unit :: next :: units, word =>
    if unit = doubleQuote then .ok (word, next :: units)
    else if unit = backslash then
      if next ≠ backslash ∧ next ≠ doubleQuote then doubleQuoted units (word ++ [unit, next])
      else doubleQuoted units (word ++ [next])
    else doubleQuoted (next :: units) (word ++ [unit])

theorem singleQuoted_length {units word word' rest : List α}
    (h : singleQuoted units word = .ok (word', rest)) : rest.length < units.length := by
  fun_induction singleQuoted units word with
  | case1 => cases h
  | case2 =>
    cases h
    simp
  | case3 unit units word _ ih =>
    have := ih h
    simp only [List.length_cons]
    omega

theorem doubleQuoted_length {units word word' rest : List α}
    (h : doubleQuoted units word = .ok (word', rest)) : rest.length < units.length := by
  fun_induction doubleQuoted units word with
  | case1 => cases h
  | case2 =>
    cases h
    simp
  | case3 => cases h
  | case4 => cases h
  | case5 =>
    cases h
    simp
  | case6 _ _ _ _ _ ih | case7 _ _ _ _ _ ih | case8 _ _ _ _ _ _ ih =>
    have := ih h
    simp only [List.length_cons] at this ⊢
    omega

/-- The words, after those found and the one that is open. A quote starts a word, so '' is an empty
word. -/
def split (words : List (List α)) (word : Option (List α)) (units : List α) :
    Except ShellWordsError (List (List α)) :=
  match units with
  | [] => .ok (words ++ word.toList)
  | unit :: units =>
    if isSeparator unit then split (words ++ word.toList) none units
    else
      let current := word.getD []
      if unit = singleQuote then
        match hquoted : singleQuoted units current with
        | .error error => .error error
        | .ok (current, rest) =>
          have := singleQuoted_length hquoted
          split words (some current) rest
      else if unit = doubleQuote then
        match hquoted : doubleQuoted units current with
        | .error error => .error error
        | .ok (current, rest) =>
          have := doubleQuoted_length hquoted
          split words (some current) rest
      else if unit = backslash then
        match units with
        | [] => .error .noEscapedCharacter
        | next :: units => split words (some (current ++ [next])) units
      else split words (some (current ++ [unit])) units
termination_by units.length
decreasing_by
  all_goals
    simp only [List.length_cons]
    omega

def splitShellWords (command : Text) : Except ShellWordsError (List Text) :=
  split [] none command

def splitShellCodePoints (command : CodePointString) :
    Except ShellWordsError (List CodePointString) :=
  (split [] none command.codePoints).map fun words => words.map CodePointString.ofCodePoints

end Agentless.Shell
