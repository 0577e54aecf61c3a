import Agentless.Library.Attempt
import Agentless.Library.RegexChain

/-!
# Argument counts of positional actions

How many arguments each positional takes is matched against the pattern of the command line,
greedily and with backtracking. The counts are those of the first match of a regular expression.
-/

namespace Agentless.Cli

/-- One character of the pattern: `A` for a value, `O` for an option, `-` for the separator. -/
inductive Letter where
  | value
  | option
  | separator
deriving DecidableEq, Repr

inductive Arity where
  | one
  | optional
  | oneOrMore
  | any
deriving DecidableEq, Repr

/-- The arity of a positional action, or of the subcommand: one name, then everything after it. -/
inductive Nargs where
  | arity (arity : Arity)
  | parser
deriving DecidableEq, Repr

inductive Token where
  /-- Any run of the listed letters, the longest first. -/
  | star (set : List Letter)
  /-- The letter once if it is there, else nothing. -/
  | optional (letter : Letter)
  /-- The letter once. -/
  | one (letter : Letter)

def dashes : Token := .star [.separator]

def tokens : Nargs → List Token
  | .arity .one => [dashes, .one .value, dashes]
  | .arity .optional => [dashes, .optional .value, dashes]
  | .arity .any => [dashes, .star [.value, .separator]]
  | .arity .oneOrMore => [dashes, .one .value, .star [.value, .separator]]
  | .parser => [dashes, .one .value, .star [.separator, .value, .option]]

section Matching

variable (pattern : List Letter)

/-- The ends of the runs of the tokens in backtracking order. A run from past the end of the pattern
goes wrong. -/
def endsOf : List Token → Nat → Option (List Nat)
  | [], start => some [start]
  | .star set :: rest, start => do
    let tail ← slice? pattern start pattern.length
    let run := (tail.takeWhile (set.contains ·)).length
    let ends ← (List.range (run + 1)).reverse.mapM fun taken => endsOf rest (start + taken)
    some ends.flatten
  | .optional letter :: rest, start => do
    let taken ← if pattern[start]? = some letter then endsOf rest (start + 1) else some []
    let untaken ← endsOf rest start
    some (taken ++ untaken)
  | .one letter :: rest, start =>
    if pattern[start]? = some letter then endsOf rest (start + 1) else some []

/-- The first match in backtracking order: each pattern's longest candidate first. -/
def matched : List Nargs → Nat → Option (Option (List Nat))
  | [], _ => some (some [])
  | first :: rest, start => do
    let ends ← endsOf pattern (tokens first) start
    ends.findSomeM? fun stop => do
      let found ← matched rest stop
      some (found.map ((stop - start) :: ·))

end Matching

/-- The counts of the longest prefix of `nargs` whose patterns match the start of the pattern.
When an option follows the match, the trailing zero counts go, so those positionals wait for a
later run. -/
def matchPartial (nargs : List Nargs) (pattern : List Letter) : Option (List Nat) := do
  let found ← (List.range' 1 nargs.length).reverse.findSomeM? fun count =>
    matched pattern (nargs.take count) 0
  match found with
  | none => some []
  | some counts =>
    some (if pattern[counts.sum]? = some .option then counts.rdropWhile (· = 0) else counts)

/-! ## The regular expressions -/

open Regex

def dash : Regex Letter := .cls (· == .separator)

def single : Regex Letter := .cls (· == .value)

/-- What the pattern of a positional has to look like. -/
def Nargs.regex : Nargs → Regex Letter
  | .arity .one => .seq (.loop 0 none dash) (.seq single (.loop 0 none dash))
  | .arity .optional =>
    .seq (.loop 0 none dash) (.seq (.loop 0 (some 1) single) (.loop 0 none dash))
  | .arity .any => .seq (.loop 0 none dash) (.loop 0 none (.cls (· != .option)))
  | .arity .oneOrMore =>
    .seq (.loop 0 none dash) (.seq single (.loop 0 none (.cls (· != .option))))
  | .parser => .seq (.loop 0 none dash) (.seq single (.loop 0 none (.cls fun _ => true)))

def noWord : Letter → Bool := fun _ => false

/-- The first match of the patterns of positionals, in the order of a backtracking matcher. -/
def firstCounts (nargs : List Nargs) (pattern : List Letter) (start : Nat) : Option (List Nat) :=
  firstSpans noWord pattern (nargs.map Nargs.regex) start

/-- The first match of the longest prefix of the positionals that has one. -/
structure LongestMatch (nargs : List Nargs) (pattern : List Letter) (size : Nat)
    (counts : List Nat) : Prop where
  pos : 0 < size
  le : size ≤ nargs.length
  first : firstCounts (nargs.take size) pattern 0 = some counts
  longest : ∀ more, size < more → more ≤ nargs.length →
    firstCounts (nargs.take more) pattern 0 = none

def Token.regex : Token → Regex Letter
  | .star set => .loop 0 none (.cls (set.contains ·))
  | .optional letter => .loop 0 (some 1) (.cls (· == letter))
  | .one letter => .cls (· == letter)

theorem nil_notMem_cls (accepts : Letter → Bool) : [] ∉ language (.cls accepts) := by
  rintro ⟨c, -, h⟩
  cases h

theorem plain_loop (least : Nat) (most : Option Nat) (accepts : Letter → Bool) :
    Plain (.loop least most (.cls accepts)) :=
  ⟨trivial, nil_notMem_cls accepts⟩

theorem Nargs.plain (nargs : Nargs) : Plain nargs.regex := by
  match nargs with
  | .arity .one => exact ⟨plain_loop _ _ _, trivial, plain_loop _ _ _⟩
  | .arity .optional => exact ⟨plain_loop _ _ _, plain_loop _ _ _, plain_loop _ _ _⟩
  | .arity .any => exact ⟨plain_loop _ _ _, plain_loop _ _ _⟩
  | .arity .oneOrMore => exact ⟨plain_loop _ _ _, trivial, plain_loop _ _ _⟩
  | .parser => exact ⟨plain_loop _ _ _, trivial, plain_loop _ _ _⟩

theorem forall_plain (nargs : List Nargs) : ∀ regex ∈ nargs.map Nargs.regex, Plain regex := by
  rw [List.forall_mem_map]
  exact fun nargs _ => nargs.plain

/-! ## The code and the expressions -/

section Exact

variable {pattern : List Letter}

/-- The marks at which runs of the tokens end. -/
def marks (pattern : List Letter) : List Token → Mark → List Mark
  | [], mark => [mark]
  | token :: rest, mark =>
    (outcomes noWord pattern token.regex mark).flatMap (marks pattern rest)

theorem regex_star {set : List Letter} {accepts : Letter → Bool}
    (h : ∀ letter, set.contains letter = accepts letter) :
    (Token.star set).regex = .loop 0 none (.cls accepts) := by
  rw [Token.regex, funext h]

theorem regex_dashes : dashes.regex = .loop 0 none dash :=
  regex_star fun letter => by cases letter <;> rfl

theorem regex_values : (Token.star [.value, .separator]).regex =
    .loop 0 none (.cls (· != .option)) :=
  regex_star fun letter => by cases letter <;> rfl

theorem regex_all : (Token.star [.separator, .value, .option]).regex =
    .loop 0 none (.cls fun _ => true) :=
  regex_star fun letter => by cases letter <;> rfl

/-- The tokens of a positional one after the other are its expression. -/
theorem marks_tokens (nargs : Nargs) (mark : Mark) :
    marks pattern (tokens nargs) mark = outcomes noWord pattern nargs.regex mark := by
  match nargs with
  | .arity .one | .arity .optional =>
    simp only [tokens, marks, Nargs.regex, outcomes_seq, regex_dashes, List.flatMap_singleton']
    rfl
  | .arity .any =>
    simp only [tokens, marks, Nargs.regex, outcomes_seq, regex_dashes, regex_values,
      List.flatMap_singleton']
  | .arity .oneOrMore =>
    simp only [tokens, marks, Nargs.regex, outcomes_seq, regex_dashes, regex_values,
      List.flatMap_singleton']
    rfl
  | .parser =>
    simp only [tokens, marks, Nargs.regex, outcomes_seq, regex_dashes, regex_all,
      List.flatMap_singleton']
    rfl

theorem outcomes_letter (letter : Letter) (mark : Mark) :
    outcomes noWord pattern (.cls (· == letter)) mark =
      if pattern[mark.pos]? = some letter then [mark.advance 1] else [] := by
  rw [outcomes]
  refine if_congr ?_ rfl rfl
  rw [Option.any_eq_true]
  simp

theorem outcomes_optional (letter : Letter) (mark : Mark) :
    outcomes noWord pattern (.loop 0 (some 1) (.cls (· == letter))) mark =
      if pattern[mark.pos]? = some letter then [mark.advance 1, mark] else [mark] := by
  rw [outcomes_loop_cls]
  split_ifs with hletter
  · rw [runLength_of_any (by rw [hletter]; exact beq_self_eq_true letter), upTo, Option.elim_some,
      Nat.min_eq_left (Nat.le_add_left 1 _)]
    rfl
  · rw [runLength_of_not_any]
    · rfl
    · rw [Option.any_eq_true]
      rintro ⟨found, hfound, heq⟩
      exact hletter (hfound.trans (congrArg some (eq_of_beq heq)))

theorem endsOf_eq {parts : List Token} {mark : Mark} (hmark : mark.pos ≤ pattern.length) :
    endsOf pattern parts mark.pos = some ((marks pattern parts mark).map Mark.pos) := by
  induction parts generalizing mark with
  | nil => rfl
  | cons token rest ih =>
    have hnext : ∀ {letter : Letter}, pattern[mark.pos]? = some letter →
        endsOf pattern rest (mark.pos + 1) =
          some ((marks pattern rest (mark.advance 1)).map Mark.pos) := by
      intro letter hletter
      obtain ⟨hlt, -⟩ := List.getElem?_eq_some_iff.mp hletter
      exact @ih (mark.advance 1) hlt
    cases token with
    | star set =>
      have hrun : ((pattern.drop mark.pos).takeWhile (set.contains ·)).length =
          runLength (set.contains ·) pattern mark.pos := rfl
      have hle : mark.pos + runLength (set.contains ·) pattern mark.pos ≤ pattern.length := by
        have hlength := (@List.takeWhile_sublist _ (pattern.drop mark.pos)
          (set.contains ·)).length_le
        rw [List.length_drop] at hlength
        omega
      have hends : ∀ taken ∈ (List.range (runLength (set.contains ·) pattern mark.pos + 1)).reverse,
          endsOf pattern rest (mark.pos + taken) =
            some ((marks pattern rest (mark.advance taken)).map Mark.pos) := by
        intro taken htaken
        rw [List.mem_reverse, List.mem_range] at htaken
        exact @ih (mark.advance taken) (by change mark.pos + taken ≤ _; omega)
      rw [endsOf, slice?_eq_some hmark (le_refl _), slice_length, Option.bind_eq_bind,
        Option.bind_some, hrun]
      dsimp only
      rw [mapM_eq_some_map hends, marks, Token.regex, outcomes_loop_cls, List.map_flatMap,
        List.flatMap_map, ← List.range_eq_range']
      rfl
    | optional letter =>
      rw [endsOf, marks, Token.regex, outcomes_optional]
      by_cases hletter : pattern[mark.pos]? = some letter
      · rw [if_pos hletter, if_pos hletter, hnext hletter, ih hmark]
        simp
      · rw [if_neg hletter, if_neg hletter, ih hmark]
        simp
    | one letter =>
      rw [endsOf, marks, Token.regex, outcomes_letter]
      by_cases hletter : pattern[mark.pos]? = some letter
      · rw [if_pos hletter, if_pos hletter, hnext hletter]
        simp
      · rw [if_neg hletter, if_neg hletter]
        rfl

theorem matched_eq {nargs : List Nargs} {mark : Mark} (hmark : mark.pos ≤ pattern.length) :
    matched pattern nargs mark.pos =
      some (spans noWord pattern (nargs.map Nargs.regex) mark).head? := by
  induction nargs generalizing mark with
  | nil => rfl
  | cons first rest ih =>
    have hends : ∀ stop ∈ (outcomes noWord pattern first.regex mark).map Mark.pos,
        (do
          let found ← matched pattern rest stop
          some (found.map ((stop - mark.pos) :: ·))) =
        some (((spans noWord pattern (rest.map Nargs.regex) ⟨stop, mark.group⟩).head?).map
          ((stop - mark.pos) :: ·)) := by
      intro stop hstop
      obtain ⟨next, hnext, rfl⟩ := List.mem_map.mp hstop
      obtain ⟨length, rfl, hlength, -⟩ := (first.plain.mem_outcomes hmark).mp hnext
      rw [ih hlength]
      rfl
    rw [matched, endsOf_eq hmark, marks_tokens, Option.bind_eq_bind, Option.bind_some,
      findSomeM?_eq_some hends, List.map_cons, head?_spans_cons, List.findSome?_map]
    refine congrArg some (findSome?_congr fun next hnext => ?_)
    obtain ⟨length, rfl, -⟩ := (first.plain.mem_outcomes hmark).mp hnext
    rfl

/-- The counts are those of the longest prefix of the positionals that has a match, its first one,
without the trailing zero counts when an option comes next. -/
theorem matchPartial_spec (nargs : List Nargs) (pattern : List Letter) :
    ∃ counts, matchPartial nargs pattern = some counts ∧
      ((counts = [] ∧ ∀ size, 0 < size → size ≤ nargs.length →
          firstCounts (nargs.take size) pattern 0 = none) ∨
        ∃ size found, LongestMatch nargs pattern size found ∧
          counts = if pattern[found.sum]? = some .option then found.rdropWhile (· = 0)
            else found) := by
  have hmatched : ∀ size ∈ (List.range' 1 nargs.length).reverse,
      matched pattern (nargs.take size) 0 = some (firstCounts (nargs.take size) pattern 0) :=
    fun size _ => @matched_eq pattern _ ⟨0, none⟩ (Nat.zero_le _)
  rw [matchPartial, findSomeM?_eq_some hmatched, Option.bind_eq_bind, Option.bind_some]
  cases hfound : (List.range' 1 nargs.length).reverse.findSome? fun size =>
      firstCounts (nargs.take size) pattern 0 with
  | none =>
    refine ⟨[], rfl, .inl ⟨rfl, fun size hpos hle => ?_⟩⟩
    exact List.findSome?_eq_none_iff.mp hfound size
      (List.mem_reverse.mpr (List.mem_range'_1.mpr ⟨hpos, by omega⟩))
  | some found =>
    refine ⟨_, rfl, .inr ?_⟩
    obtain ⟨longer, size, shorter, hsplit, hsize, hlonger⟩ := List.findSome?_eq_some_iff.mp hfound
    have hmem : size ∈ List.range' 1 nargs.length := by
      rw [← List.mem_reverse, hsplit]
      exact List.mem_append_right _ List.mem_cons_self
    have hbounds := List.mem_range'_1.mp hmem
    refine ⟨size, found, ⟨hbounds.1, by omega, hsize, ?_⟩, rfl⟩
    intro more hmore hle
    refine hlonger more ?_
    have hsorted : (longer ++ size :: shorter).Pairwise (· > ·) := by
      rw [← hsplit, List.pairwise_reverse]
      exact List.pairwise_lt_range'
    have hmore' : more ∈ longer ++ size :: shorter := by
      rw [← hsplit, List.mem_reverse]
      exact List.mem_range'_1.mpr ⟨by omega, by omega⟩
    obtain hlong | hrest := List.mem_append.mp hmore'
    · exact hlong
    · have hshorter := (List.pairwise_append.mp hsorted).2.1
      obtain rfl | hshort := List.mem_cons.mp hrest
      · omega
      · have hless := (List.pairwise_cons.mp hshorter).1 more hshort
        omega

/-- The counts are those of pieces of the pattern that the positionals accept. -/
theorem matchPartial_pieces (nargs : List Nargs) (pattern : List Letter) :
    ∃ counts, matchPartial nargs pattern = some counts ∧ counts.length ≤ nargs.length ∧
      Pieces pattern ((nargs.take counts.length).map Nargs.regex) 0 counts := by
  obtain ⟨counts, hcounts, ⟨rfl, -⟩ | ⟨size, found, hlongest, hkept⟩⟩ :=
    matchPartial_spec nargs pattern
  · exact ⟨[], hcounts, Nat.zero_le _, trivial⟩
  · have hpieces := pieces_of_firstSpans (forall_plain _) (Nat.zero_le _) hlongest.first
    have hlength := hpieces.length_eq
    rw [List.length_map, List.length_take_of_le hlongest.le] at hlength
    have hprefix : counts <+: found := by
      rw [hkept]
      split_ifs
      · exact List.rdropWhile_prefix _ _
      · exact List.prefix_refl _
    have hle := hprefix.length_le
    refine ⟨counts, hcounts, by have := hlongest.le; omega, ?_⟩
    have htake := hpieces.take counts.length
    rwa [← List.prefix_iff_eq_take.mp hprefix, ← List.map_take, List.take_take,
      Nat.min_eq_left (by omega)] at htake

/-- A subcommand has a name behind its separator. -/
theorem parser_piece {letters : List Letter} (h : letters ∈ language Nargs.parser.regex) :
    letters ≠ [] ∧ (letters.head? = some .separator → 2 ≤ letters.length) := by
  obtain ⟨dashes, -, rest, hrest, rfl⟩ := Language.mem_mul.mp h
  obtain ⟨name, ⟨letter, hletter, rfl⟩, more, -, rfl⟩ := Language.mem_mul.mp hrest
  refine ⟨by simp, fun hhead => ?_⟩
  cases dashes with
  | nil =>
    obtain rfl : letter = .value := eq_of_beq hletter
    cases hhead
  | cons first dashes =>
    simp only [List.cons_append, List.length_cons, List.length_append]
    omega

end Exact

end Agentless.Cli
