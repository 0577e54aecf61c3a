import Mathlib.Data.List.Basic
import Mathlib.Tactic.Common

/-!
# How a POSIX shell reads a command text

Quoting, token recognition and the simple commands of a text, over code points. A text is marked
first: each unit by how it is quoted. Blanks cut the marks into chunks, operators cut the chunks into
tokens, and control operators cut the tokens into commands. Comments and the bodies of here-documents
are left out, and a redirection takes its target with it. Expansions stay as they are written, and a
compound command is read as the simple commands in it.
-/

namespace Agentless.PosixShell

abbrev tab : Nat := 0x09
abbrev newline : Nat := 0x0a
abbrev space : Nat := 0x20
abbrev doubleQuote : Nat := 0x22
abbrev hash : Nat := 0x23
abbrev dollar : Nat := 0x24
abbrev singleQuote : Nat := 0x27
abbrev less : Nat := 0x3c
abbrev equals : Nat := 0x3d
abbrev underscore : Nat := 0x5f
abbrev backslash : Nat := 0x5c
abbrev backquote : Nat := 0x60

def units (text : String) : List Nat := text.toList.map Char.toNat

/-! ## Quoting -/

/-- A unit and how it is quoted. A quote that opens is marked too, for it makes a word. -/
inductive Mark where
  | plain (unit : Nat)
  | opened
  | quoted (unit : Nat)
  | escaped (unit : Nat)
  | doubleEscaped (unit : Nat)
deriving DecidableEq, Repr

inductive Quote where
  | free
  | single
  | double
  | escape
  | doubleEscape
deriving DecidableEq, Repr

/-- What a unit does, and the marks it leaves. -/
def Quote.next : Quote → Nat → Quote × List Mark
  | free, unit =>
    if unit = singleQuote then (single, [.opened])
    else if unit = doubleQuote then (double, [.opened])
    else if unit = backslash then (escape, [])
    else (free, [.plain unit])
  | single, unit => if unit = singleQuote then (free, []) else (single, [.quoted unit])
  | double, unit =>
    if unit = doubleQuote then (free, [])
    else if unit = backslash then (doubleEscape, [])
    else (double, [.quoted unit])
  | escape, unit => (free, [.escaped unit])
  | doubleEscape, unit => (double, [.doubleEscaped unit])

section Next

variable {unit : Nat}

theorem next_free (hsingle : unit ≠ singleQuote) (hdouble : unit ≠ doubleQuote)
    (hescape : unit ≠ backslash) : Quote.free.next unit = (.free, [.plain unit]) := by
  rw [Quote.next, if_neg hsingle, if_neg hdouble, if_neg hescape]

theorem next_single (h : unit ≠ singleQuote) :
    Quote.single.next unit = (.single, [.quoted unit]) := if_neg h

theorem next_double (hdouble : unit ≠ doubleQuote) (hescape : unit ≠ backslash) :
    Quote.double.next unit = (.double, [.quoted unit]) := by
  rw [Quote.next, if_neg hdouble, if_neg hescape]

end Next

/-- The marks of a text, and how its end is quoted. -/
def quoting : Quote → List Nat → List Mark × Quote
  | quote, [] => ([], quote)
  | quote, unit :: text =>
    ((quote.next unit).2 ++ (quoting (quote.next unit).1 text).1, (quoting (quote.next unit).1 text).2)

/-- An escaped newline joins two lines. -/
def Mark.joins : Mark → Bool
  | escaped unit | doubleEscaped unit => unit == newline
  | _ => false

/-- What is left of a mark when the quotes are removed. -/
def Mark.text : Mark → List Nat
  | plain unit | quoted unit => [unit]
  | opened => []
  | escaped unit => if unit = newline then [] else [unit]
  | doubleEscaped unit =>
    if unit = newline then []
    else if [dollar, backquote, doubleQuote, backslash].contains unit then [unit]
    else [backslash, unit]

abbrev Word := List Mark

def Word.text (word : Word) : List Nat := word.flatMap Mark.text

/-! ## Tokens -/

def isBlank (mark : Mark) : Bool := mark == .plain space || mark == .plain tab

/-- The longest comes first. -/
def operators : List (List Nat) :=
  ["<<-", "&&", "||", ";;", "<<", ">>", "<&", ">&", "<>", ">|", "&", ";", "|", "<", ">", "(", ")",
    "\n"].map units

/-- The units that start an operator. -/
def startsOperator (unit : Nat) : Bool := (units "&|;<>()\n").contains unit

def isRedirection (operator : List Nat) : Bool :=
  operator.head?.any fun unit => unit == less || unit == 0x3e

inductive Token where
  | word (word : Word)
  | operator (operator : List Nat)
deriving DecidableEq, Repr

/-- The marks that blanks part, without the blanks. -/
def chunksFrom (current : List Mark) : List Mark → List (List Mark)
  | [] => if current = [] then [] else [current]
  | mark :: marks =>
    if isBlank mark then (if current = [] then [] else [current]) ++ chunksFrom [] marks
    else chunksFrom (current ++ [mark]) marks

def chunks (marks : List Mark) : List (List Mark) := chunksFrom [] marks

def operatorAt (marks : List Mark) : Option (List Nat) :=
  operators.find? fun operator => (operator.map Mark.plain).isPrefixOf marks

/-- A number right before a redirection belongs to it. -/
def ioNumber (word : Word) : Bool :=
  word.all fun mark => (units "0123456789").any fun unit => mark == .plain unit

/-- The tokens of a chunk, behind the word that is open. The count passes over the rest of an
operator. -/
def tokensFrom (word : Word) : Nat → List Mark → List Token
  | _, [] => if word = [] then [] else [.word word]
  | passed + 1, _ :: marks => tokensFrom word passed marks
  | 0, mark :: marks =>
    match operatorAt (mark :: marks) with
    | some operator =>
      (if word = [] || isRedirection operator && ioNumber word then [] else [.word word]) ++
        .operator operator :: tokensFrom [] (operator.length - 1) marks
    | none => tokensFrom (word ++ [mark]) 0 marks

def tokens (chunk : List Mark) : List Token :=
  tokensFrom [] 0 (chunk.filter fun mark => !mark.joins)

/-! ## Comments and here-documents -/

/-- The text that ends a here-document, and whether its lines lose their leading tabs. -/
structure Body where
  dash : Bool
  delimiter : List Nat

def Body.ends (body : Body) (line : List Nat) : Bool :=
  (if body.dash then line.dropWhile (· == tab) else line) == body.delimiter

/-- The here-document whose operator the text follows. -/
def Body.of (text : List Nat) : Body :=
  let dash := text.head? == some 0x2d
  let marks := (quoting .free (if dash then text.tail else text)).1
  let word := (marks.dropWhile isBlank).takeWhile fun mark =>
    !(isBlank mark || (units "&|;<>()\n").any fun unit => mark == .plain unit)
  ⟨dash, Word.text word⟩

inductive Mode where
  | quote (quote : Quote)
  | comment
  | body (line : List Nat)
deriving DecidableEq

/-- A token starts behind a blank and behind an operator. -/
def startsToken : Option Mark → Bool
  | none => true
  | some (.plain unit) => unit == space || unit == tab || startsOperator unit
  | some _ => false

/-- Behind a newline the bodies come that are still missing. -/
def nextLine (bodies : List Body) : Mode := if bodies.isEmpty then .quote .free else .body []

/-- The marks that the shell reads: none of a comment and none of the body of a here-document. The
last mark before is known, but for those that only join two lines. -/
def reading (last : Option Mark) (bodies : List Body) : Mode → List Nat → List Mark
  | _, [] => []
  | .comment, unit :: text =>
    if unit = newline then .plain newline :: reading none bodies (nextLine bodies) text
    else reading last bodies .comment text
  | .body line, unit :: text =>
    if unit = newline then
      let missing := if bodies.head?.any (·.ends line) then bodies.tail else bodies
      reading none missing (nextLine missing) text
    else reading last bodies (.body (line ++ [unit])) text
  | .quote quote, unit :: text =>
    if quote = .free ∧ unit = hash ∧ startsToken last then reading last bodies .comment text
    else if quote = .free ∧ unit = newline then
      .plain newline :: reading none bodies (nextLine bodies) text
    else if quote = .free ∧ unit = less ∧ last = some (.plain less) then
      .plain less :: reading none (bodies ++ [Body.of text]) (.quote .free) text
    else
      let marks := (quote.next unit).2
      let seen := (marks.filter fun mark => !mark.joins).getLast?
      marks ++ reading (seen.or last) bodies (.quote (quote.next unit).1) text

/-! ## Commands -/

/-- The commands that control operators part, each with true when the one before it is piped into
it. A newline behind an operator parts nothing. -/
def commandsFrom (piped : Bool) (argv : List Word) (target : Bool) :
    List Token → List (Bool × List Word)
  | [] => if argv = [] then [] else [(piped, argv)]
  | .word word :: tokens =>
    if target then commandsFrom piped argv false tokens
    else commandsFrom piped (argv ++ [word]) false tokens
  | .operator operator :: tokens =>
    if isRedirection operator then commandsFrom piped argv true tokens
    else if argv = [] ∧ operator = units "\n" then commandsFrom piped [] false tokens
    else (if argv = [] then [] else [(piped, argv)]) ++
      commandsFrom (operator == units "|") [] false tokens

/-- The reserved words that stand in front of a command or end a compound one. -/
def reserved : List Word :=
  ["!", "\x7b", "\x7d", "if", "then", "else", "elif", "fi", "while", "until", "do", "done",
    "esac"].map fun text => (units text).map Mark.plain

def isNameStart (mark : Mark) : Bool :=
  match mark with
  | .plain unit =>
    (0x41 ≤ unit && unit ≤ 0x5a) || (0x61 ≤ unit && unit ≤ 0x7a) || unit == underscore
  | _ => false

def isNamePart (mark : Mark) : Bool :=
  isNameStart mark || (units "0123456789").any fun unit => mark == .plain unit

def isAssignment (word : Word) : Bool :=
  word.head?.any isNameStart && (word.dropWhile isNamePart).head? == some (.plain equals)

/-- The program of a command and its arguments. -/
def invocation (argv : List Word) : List Word :=
  (argv.dropWhile reserved.contains).dropWhile isAssignment

/-- Two lists of chunks are the same up to the first chunk with a mark of a kind. -/
inductive Shared (foreign : Mark → Prop) : List (List Mark) → List (List Mark) → Prop where
  | nil : Shared foreign [] []
  | cons (chunk : List Mark) {chunks others : List (List Mark)} (h : Shared foreign chunks others) :
    Shared foreign (chunk :: chunks) (chunk :: others)
  | apart {chunk : List Mark} (chunks others : List (List Mark)) {mark : Mark}
    (hmark : mark ∈ chunk) (h : foreign mark) : Shared foreign (chunk :: chunks) others

/-- Two lists of marks are the same up to the first mark of a kind. -/
inductive SharedMarks (foreign : Mark → Prop) : List Mark → List Mark → Prop where
  | nil : SharedMarks foreign [] []
  | cons (mark : Mark) {marks others : List Mark} (h : SharedMarks foreign marks others) :
    SharedMarks foreign (mark :: marks) (mark :: others)
  | apart {mark : Mark} (marks others : List Mark) (h : foreign mark) :
    SharedMarks foreign (mark :: marks) others

section Shared

variable {foreign : Mark → Prop}

theorem SharedMarks.append (shared : List Mark) {marks others : List Mark}
    (h : SharedMarks foreign marks others) :
    SharedMarks foreign (shared ++ marks) (shared ++ others) := by
  induction shared with
  | nil => exact h
  | cons mark shared ih => exact .cons mark ih

theorem Shared.refl (chunks : List (List Mark)) : Shared foreign chunks chunks := by
  induction chunks with
  | nil => exact .nil
  | cons chunk chunks ih => exact .cons chunk ih

theorem Shared.append (shared : List (List Mark)) {chunks others : List (List Mark)}
    (h : Shared foreign chunks others) : Shared foreign (shared ++ chunks) (shared ++ others) := by
  induction shared with
  | nil => exact h
  | cons chunk shared ih => exact .cons chunk ih

/-- The marks of an open chunk are in the first chunk. -/
theorem chunksFrom_open (current marks : List Mark) (h : current ≠ []) :
    ∃ chunk rest, chunksFrom current marks = chunk :: rest ∧ current ⊆ chunk := by
  induction marks generalizing current with
  | nil => exact ⟨current, [], by rw [chunksFrom, if_neg h], List.Subset.refl _⟩
  | cons mark marks ih =>
    rw [chunksFrom]
    split_ifs with hblank
    · exact ⟨current, _, rfl, List.Subset.refl _⟩
    · obtain ⟨chunk, rest, hchunk, hsubset⟩ := ih (current ++ [mark]) (by simp)
      exact ⟨chunk, rest, hchunk, fun _ hmem => hsubset (List.mem_append_left _ hmem)⟩

theorem SharedMarks.chunksFrom {marks others : List Mark} (h : SharedMarks foreign marks others)
    (hblank : ∀ mark, foreign mark → isBlank mark = false) (current : List Mark) :
    Shared foreign (chunksFrom current marks) (PosixShell.chunksFrom current others) := by
  induction h generalizing current with
  | nil => exact .refl _
  | cons mark _ ih =>
    rw [PosixShell.chunksFrom, PosixShell.chunksFrom]
    split_ifs
    · exact (ih []).append _
    · exact (ih []).append _
    · exact ih _
  | apart marks others hforeign =>
    rename_i mark
    rw [PosixShell.chunksFrom, if_neg (Bool.eq_false_iff.mp (hblank mark hforeign))]
    obtain ⟨chunk, rest, hchunk, hsubset⟩ := chunksFrom_open (current ++ [mark]) marks (by simp)
    rw [hchunk]
    exact .apart _ _ (hsubset (by simp)) hforeign

end Shared

/-- The mark of a unit that the shell takes as it is. -/
def Ordinary : Mark → Prop
  | .plain unit => unit ∉ units "&|;<>()# \t\r\n"
  | .escaped unit => unit ≠ newline
  | .doubleEscaped unit => unit ≠ newline ∧ unit ≠ dollar ∧ unit ≠ backquote
  | .opened | .quoted _ => True

end Agentless.PosixShell
