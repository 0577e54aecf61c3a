import Agentless.Hook.Search
import Agentless.Library.PosixShell

/-!
# Where the reading of a command is that of the shell

The words come without their quotes, so a quoted separator cuts a command as a bare one does. The
bare separators cut a text into stretches. In a stretch of ordinary words the commands are those of
the shell, and what is found there is a tree search of the shell too.
-/

namespace Agentless.Hook.Search

open PosixShell

/-! ## The words of the marks -/

/-- What the splitter keeps of a mark. -/
def kept : Mark → List Nat
  | .plain unit | .quoted unit | .escaped unit => [unit]
  | .opened => []
  | .doubleEscaped unit =>
    if unit ≠ backslash ∧ unit ≠ doubleQuote then [backslash, unit] else [unit]

def splits : Mark → Bool
  | .plain unit => Shell.isSeparator unit
  | _ => false

/-- The words of the marks, behind the word that is open. -/
def wordsFrom (word : Option (List Nat)) : List Mark → List (List Nat)
  | [] => word.toList
  | mark :: marks =>
    if splits mark then word.toList ++ wordsFrom none marks
    else wordsFrom (some (word.getD [] ++ kept mark)) marks

section Quotes

variable {unit : Nat} {text word word' rest : List Nat}

/-- What a quote leaves open until it closes. -/
def Closes (quote : Quote) (text word word' rest : List Nat) : Prop :=
  ∃ body, (∀ mark ∈ body, splits mark = false) ∧ word' = word ++ body.flatMap kept ∧
    quoting quote text = (body ++ (quoting .free rest).1, (quoting .free rest).2)

theorem Closes.cons {quote next : Quote} {marks : List Mark}
    (hnext : quote.next unit = (next, marks)) (hmarks : ∀ mark ∈ marks, splits mark = false)
    (h : Closes next text (word ++ marks.flatMap kept) word' rest) :
    Closes quote (unit :: text) word word' rest := by
  obtain ⟨body, hbody, rfl, hquoting⟩ := h
  refine ⟨marks ++ body, fun mark hmark => ?_, ?_, ?_⟩
  · exact (List.mem_append.mp hmark).elim (hmarks mark) (hbody mark)
  · rw [List.flatMap_append, List.append_assoc]
  · rw [quoting, hnext, hquoting, List.append_assoc]

end Quotes

/-- The words of chunks, as the splitter gives them. -/
def wordsOf (chunks : List (List Mark)) : List CodePointString :=
  (chunks.flatMap (wordsFrom none)).map CodePointString.ofCodePoints

/-- The chunks of the bare separators. -/
def bareSeparators : List (List Mark) := separators.map fun text => text.map fun c => .plain c.toNat

def barePipe : List Mark := [.plain 0x7c]

def startsForeign (chunk : List Mark) : Bool :=
  chunk.any fun mark => mark == .plain hash || mark == .plain less

/-- The stretches between bare separators, each with true when it reads a pipe. What follows a
comment or a here-document is one stretch with what stands before it. -/
def stretches (piped : Bool) (current : List (List Mark)) :
    List (List Mark) → List (Bool × List (List Mark))
  | [] => [(piped, current)]
  | chunk :: chunks =>
    if startsForeign chunk then [(piped, current ++ chunk :: chunks)]
    else if bareSeparators.contains chunk then
      (piped, current) :: stretches (chunk == barePipe) [] chunks
    else stretches piped (current ++ [chunk]) chunks

/-- A word that the shell takes as it is, and that the rules take for no separator. -/
structure Regular (chunk : List Mark) : Prop where
  ne_nil : chunk ≠ []
  ordinary : ∀ mark ∈ chunk, Ordinary mark
  separator : is (CodePointString.ofCodePoints (chunk.flatMap kept)) separators = false

/-- A stretch of regular words that starts with its program. -/
structure Alike (stretch : List (List Mark)) : Prop where
  ne_nil : stretch ≠ []
  regular : ∀ chunk ∈ stretch, Regular chunk
  program : invocation stretch = stretch

/-- The commands of a stretch, by the rules. -/
def commandsOf (stretch : Bool × List (List Mark)) : List (Bool × List CodePointString) :=
  commandsFrom stretch.1 [] (wordsOf stretch.2)

section Search

variable {disk : Disk} {cwd : Base}

variable (disk cwd)

variable {disk cwd}

/-- A grep with a recursive flag, or a find with a search flag. It searches whatever the files are. -/
def certain : List CodePointString → Bool
  | [] => false
  | first :: rest =>
    let name := posixName (lossy first)
    grepNames.contains name && rest.any recursive ||
      findNames.contains name && rest.any fun word => is word findSearchFlags

/-- An rg, or a command that searches whatever the files are. -/
def suspect : List CodePointString → Bool
  | [] => false
  | first :: rest => rgNames.contains (posixName (lossy first)) || certain (first :: rest)

/-- The rules read a command in the stretch that may search a tree. -/
def Suspicious (stretch : Bool × List (List Mark)) : Prop :=
  ∃ argv, (false, argv) ∈ commandsOf stretch ∧ suspect argv = true

/-- The stretch starts with its program and the words of a search, each of them regular. -/
structure Opens (stretch : List (List Mark)) (program : List Mark) (words : List (List Mark)) :
    Prop where
  starts : program :: words <+: stretch
  regular : ∀ chunk ∈ program :: words, Regular chunk
  isProgram : program ∉ reserved ∧ isAssignment program = false
  searches : certain (wordsOf (program :: words)) = true

/-- The text leaves a quote open, or every stretch in which the rules read a command that may search
a tree is alike in both readings, or starts with a search that reads no pipe. -/
def Readable (text : List Nat) : Prop :=
  (quoting .free text).2 = .free →
    ∀ stretch ∈ stretches false [] (chunks (quoting .free text).1), Suspicious stretch →
      Alike stretch.2 ∨ stretch.1 = false ∧ ∃ program words, Opens stretch.2 program words

end Search

/-- A quoted separator and a redirection behind the flag of a grep. -/
def RedirectedSearch.command : CodePointString := ⟨utf8 "cd src && grep -r ';' x > out".toList⟩

theorem RedirectedSearch.codePoints :
    RedirectedSearch.command.codePoints = units "cd src && grep -r ';' x > out" :=
  CodePointString.codePoints_utf8 _

theorem regular_units {text : String} (hne : units text ≠ [])
    (hordinary : ∀ unit ∈ units text, unit ∉ units "&|;<>()# \t\r\n")
    (hseparator : is (CodePointString.ofCodePoints (units text)) separators = false) :
    Regular ((units text).map Mark.plain) := by
  have hkept : ((units text).map Mark.plain).flatMap kept = units text := by
    rw [List.flatMap_map]
    exact List.flatMap_singleton' _
  refine ⟨by simpa using hne, fun mark hmark => ?_, by rw [hkept]; exact hseparator⟩
  obtain ⟨unit, hunit, rfl⟩ := List.mem_map.mp hmark
  exact hordinary unit hunit

theorem RedirectedSearch.readable : Readable (units "cd src && grep -r ';' x > out") := by
  intro _ stretch hstretch hsuspicious
  have hstretches : stretches false []
      (chunks (quoting .free (units "cd src && grep -r ';' x > out")).1) =
        [(false, ["cd", "src"].map fun text => (units text).map Mark.plain),
          (false, ["grep", "-r"].map (fun text => (units text).map Mark.plain) ++
            [[.opened, .quoted 0x3b]] ++
            ["x", ">", "out"].map fun text => (units text).map Mark.plain)] := by decide
  rw [hstretches, List.mem_cons, List.mem_singleton] at hstretch
  rcases hstretch with rfl | rfl
  · obtain ⟨argv, hargv, hsuspect⟩ := hsuspicious
    have hnone : ∀ command ∈ commandsOf (false,
        ["cd", "src"].map fun text => (units text).map Mark.plain), suspect command.2 = false := by
      decide +kernel
    rw [hnone _ hargv] at hsuspect
    cases hsuspect
  · refine .inr ⟨rfl, (units "grep").map .plain, [(units "-r").map .plain], ?_, ?_, ?_, ?_⟩
    · exact ⟨_, rfl⟩
    · intro chunk hchunk
      rw [List.mem_cons, List.mem_singleton] at hchunk
      rcases hchunk with rfl | rfl
      · exact regular_units (by decide) (by decide) (by decide +kernel)
      · exact regular_units (by decide) (by decide) (by decide +kernel)
    · decide
    · decide +kernel

def QuotedSeparator.command : CodePointString := ⟨utf8 "echo ';' grep -r x".toList⟩

theorem QuotedSeparator.codePoints :
    QuotedSeparator.command.codePoints = units "echo ';' grep -r x" := CodePointString.codePoints_utf8 _

end Agentless.Hook.Search
