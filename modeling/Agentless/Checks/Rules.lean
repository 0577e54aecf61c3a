import Mathlib.Data.List.Sort
import Agentless.Metrics.Units
import Agentless.Syntax.Flat
import Agentless.Syntax.Language
import Agentless.Text.Word

/-!
# Contract rules

The rules of one language as one query, and the hits that the query finds in a tree: one for each
rule and span, with the innermost unit that holds it and its text without comments.
-/

namespace Agentless.Checks

open Syntax

/-- A parsed source: its text and the flat table of its tree. -/
structure Parsed where
  language : Language
  source : Text
  flat : Flat

abbrev Parsed.Node (parsed : Parsed) : Type := Fin parsed.flat.records.length

def Parsed.record (parsed : Parsed) (node : parsed.Node) : Record := parsed.flat.records[node]

inductive RuleSeverity where
  | warning
  | advisory
deriving DecidableEq, Repr

/-- One contract rule for one language. -/
structure ContractRule where
  id : Text
  language : Text
  severity : RuleSeverity
  query : Text
  message : Text
deriving DecidableEq, Repr

/-- One match of a query: its pattern, and its captures with the indices of their names. -/
structure QueryMatch (parsed : Parsed) where
  pattern : Nat
  captures : List (Nat × parsed.Node)

/-- The rule table, the comment kinds of the languages that are measured, and the query engine: where
the patterns of a query start, the names of its captures, and its matches in a tree. -/
structure Engine where
  contractRules : List ContractRule
  comments : Language → Option (List Nat)
  patternStarts : Language → Text → List Nat
  captureNames : Language → Text → List Text
  matches_ : (parsed : Parsed) → Text → List (QueryMatch parsed)

/-- The rules of one language as one query, and the rule of each of its patterns. -/
structure CompiledRules where
  rules : List ContractRule
  query : Text
  patternRules : List Nat
  hit : Option Nat
deriving DecidableEq, Repr

structure Hit where
  rule : ContractRule
  unit : Option Nat
  line : Nat
  capture : Text
deriving DecidableEq, Repr

def hitCapture : Text := "hit".toList

/-- The rule whose text holds the offset: the last one that starts at or before it. -/
def ruleAt (starts : List Nat) (offset : Nat) : Nat :=
  (starts.takeWhile fun start => decide (start ≤ offset)).length - 1

/-- The texts of the rules, a line break behind each, and where each starts. -/
def joinRules (rules : List ContractRule) : Text × List Nat :=
  rules.foldl (fun joined rule =>
    (joined.1 ++ rule.query ++ ['\n'], joined.2 ++ [(utf8 joined.1).length])) ([], [])

def holds (unit : Metrics.Unit) (offset : Nat) : Prop :=
  unit.startByte ≤ offset ∧ offset < unit.endByte

instance (unit : Metrics.Unit) (offset : Nat) : Decidable (holds unit offset) :=
  inferInstanceAs (Decidable (unit.startByte ≤ offset ∧ offset < unit.endByte))

/-- The unit that is innermost so far, with one more unit. -/
def enclosingStep (units : List Metrics.Unit) (offset : Nat) (best : Option Nat)
    (entry : Metrics.Unit × Nat) : Option Nat :=
  if holds entry.1 offset ∧
      (best.bind (units[·]?)).all (fun kept => decide (kept.startByte < entry.1.startByte)) then
    some entry.2
  else best

/-- The innermost unit that holds the offset: the greatest start, the first one on a tie. -/
def enclosing (units : List Metrics.Unit) (offset : Nat) : Option Nat :=
  units.zipIdx.foldl (enclosingStep units offset) none

/-- The characters of the text from the byte offset `i` to `j`, for a text that stands at
`offset`. -/
def charsFrom (offset i j : Nat) : Text → Text
  | [] => []
  | c :: text =>
    let rest := charsFrom (offset + c.utf8Size) i j text
    if i ≤ offset ∧ offset < j then c :: rest else rest

/-- The comments below the nodes of the stack, in document order. -/
def commentNodes (flat : Flat) (kinds : List Nat) : (fuel : Nat) → List Nat → List Nat
  | 0, _ => []
  | _, [] => []
  | fuel + 1, current :: stack =>
    if ((flat.records[current]?).map Record.kind).any (· ∈ kinds) then
      current :: commentNodes flat kinds fuel stack
    else commentNodes flat kinds fuel ((flat.children current).getD [] ++ stack)

namespace Engine

variable (engine : Engine)

def rulesFor (language : Language) : List ContractRule :=
  engine.contractRules.filter fun rule => rule.language = language.name

def compile (language : Language) : CompiledRules :=
  let rules := engine.rulesFor language
  let joined := joinRules rules
  { rules
    query := joined.1
    patternRules := (engine.patternStarts language joined.1).map (ruleAt joined.2)
    hit := (engine.captureNames language joined.1).idxOf? hitCapture }

/-- The node's text. Comments are cut out so that editing one does not turn an old hit into a new
one. -/
def capture (parsed : Parsed) (node : parsed.Node) : Text :=
  let comments := match engine.comments parsed.language with
    | none => []
    | some kinds => commentNodes parsed.flat kinds parsed.flat.records.length [node]
  let cut := (comments.filterMap (parsed.flat.records[·]?)).foldl (fun cut comment =>
    (cut.1 ++ charsFrom 0 cut.2 comment.start parsed.source, comment.stop))
    (([] : Text), (parsed.record node).start)
  let kept := cut.1 ++ charsFrom 0 cut.2 (parsed.record node).stop parsed.source
  [' '].intercalate (Agentless.Text.splitWhitespace kept)

def span (parsed : Parsed) (node : parsed.Node) : Nat × Nat :=
  ((parsed.record node).start, (parsed.record node).stop)

/-- One node for each span, the first one. -/
def firstOfSpans (parsed : Parsed) (nodes : List parsed.Node) : List parsed.Node :=
  nodes.foldl (fun held node =>
    if (held.map (span parsed)).contains (span parsed node) then held else held ++ [node]) []

/-- The hit nodes of the rule: one node per span, by span. -/
def hitNodes (compiled : CompiledRules) (parsed : Parsed) (order : Nat) : List parsed.Node :=
  let found := (engine.matches_ parsed compiled.query).filter fun found =>
    compiled.patternRules[found.pattern]? = some order
  let nodes := (found.flatMap QueryMatch.captures).filterMap fun captured =>
    if some captured.1 = compiled.hit then some captured.2 else none
  (firstOfSpans parsed nodes).insertionSort fun x y =>
    (span parsed x).1 < (span parsed y).1 ∨
      (span parsed x).1 = (span parsed y).1 ∧ (span parsed x).2 ≤ (span parsed y).2

/-- The hits of all rules, by where they start and then in rule order. -/
def hits (compiled : CompiledRules) (parsed : Parsed) (units : List Metrics.Unit) : List Hit :=
  let found := compiled.rules.zipIdx.flatMap fun entry =>
    (engine.hitNodes compiled parsed entry.2).map fun node =>
      let start := (parsed.record node).start
      (start, entry.2,
        { rule := entry.1
          unit := enclosing units start
          line := (parsed.flat.point start).1 + 1
          capture := engine.capture parsed node : Hit })
  (found.insertionSort fun x y => x.1 < y.1 ∨ x.1 = y.1 ∧ x.2.1 ≤ y.2.1).map fun entry => entry.2.2

end Engine

/-! ## The innermost unit -/

/-- Among the first units the one at the index holds the offset, and no other one that holds it
starts later, or with it and earlier in the list. -/
structure Innermost (units : List Metrics.Unit) (offset count index : Nat) (unit : Metrics.Unit) :
    Prop where
  lt : index < count
  at_index : units[index]? = some unit
  holds : holds unit offset
  greatest : ∀ (other : Nat) (found : Metrics.Unit), other < count → units[other]? = some found →
    Checks.holds found offset → found.startByte < unit.startByte ∨
      found.startByte = unit.startByte ∧ index ≤ other

/-- What the search knows after the first units. -/
def Searched (units : List Metrics.Unit) (offset count : Nat) : Option Nat → Prop
  | none => ∀ (other : Nat) (found : Metrics.Unit), other < count → units[other]? = some found →
      ¬ holds found offset
  | some index => ∃ unit, Innermost units offset count index unit

theorem Searched.step {units : List Metrics.Unit} {offset count : Nat} {best : Option Nat}
    {unit : Metrics.Unit} (h : Searched units offset count best) (hunit : units[count]? = some unit) :
    Searched units offset (count + 1) (enclosingStep units offset best (unit, count)) := by
  have hlast {other : Nat} {found : Metrics.Unit} (hother : other < count + 1)
      (hfound : units[other]? = some found) : other < count ∨ other = count ∧ found = unit := by
    rcases Nat.lt_succ_iff_lt_or_eq.mp hother with hlt | rfl
    · exact .inl hlt
    · exact .inr ⟨rfl, Option.some.inj (hfound.symm.trans hunit)⟩
  unfold enclosingStep
  dsimp only
  cases best with
  | none =>
    split_ifs with hholds
    · refine ⟨unit, Nat.lt_succ_self count, hunit, hholds.1, fun other found hother hfound hin => ?_⟩
      rcases hlast hother hfound with hlt | ⟨rfl, rfl⟩
      · exact absurd hin (h other found hlt hfound)
      · exact .inr ⟨rfl, Nat.le_refl _⟩
    · intro other found hother hfound hin
      rcases hlast hother hfound with hlt | ⟨rfl, rfl⟩
      · exact h other found hlt hfound hin
      · exact hholds ⟨hin, rfl⟩
  | some index =>
    obtain ⟨kept, hkept⟩ := h
    simp only [Option.bind_some, hkept.at_index, Option.all_some, decide_eq_true_iff]
    split_ifs with hholds
    · refine ⟨unit, Nat.lt_succ_self count, hunit, hholds.1, fun other found hother hfound hin => ?_⟩
      rcases hlast hother hfound with hlt | ⟨rfl, rfl⟩
      · have hgreatest := hkept.greatest other found hlt hfound hin
        have hlater := hholds.2
        exact .inl (by omega)
      · exact .inr ⟨rfl, Nat.le_refl _⟩
    · refine ⟨kept, Nat.lt_succ_of_lt hkept.lt, hkept.at_index, hkept.holds,
        fun other found hother hfound hin => ?_⟩
      rcases hlast hother hfound with hlt | ⟨rfl, rfl⟩
      · exact hkept.greatest other found hlt hfound hin
      · have hlt := hkept.lt
        have hnot : ¬ kept.startByte < found.startByte := fun hlater => hholds ⟨hin, hlater⟩
        omega

theorem searched_enclosing (units : List Metrics.Unit) (offset : Nat) :
    Searched units offset units.length (enclosing units offset) := by
  have hprefix (count : Nat) (hcount : count ≤ units.length) : Searched units offset count
      ((units.take count).zipIdx.foldl (enclosingStep units offset) none) := by
    induction count with
    | zero => exact fun other found hother => absurd hother (Nat.not_lt_zero other)
    | succ count ih =>
      have hlt : count < units.length := hcount
      have hunit : units[count]? = some units[count] := List.getElem?_eq_getElem hlt
      have hlength : (units.take count).length = count := by
        rw [List.length_take]
        omega
      rw [List.take_add_one, hunit, Option.toList_some, List.zipIdx_append, List.foldl_append,
        hlength]
      simpa using (ih (by omega)).step hunit
  have hall := hprefix units.length (Nat.le_refl _)
  rwa [List.take_length] at hall

theorem enclosing_eq_some_iff {units : List Metrics.Unit} {offset index : Nat}
    (hstarts : (units.map Metrics.Unit.startByte).Nodup) :
    enclosing units offset = some index ↔ ∃ unit, units[index]? = some unit ∧ holds unit offset ∧
      ∀ (other : Nat) (found : Metrics.Unit), units[other]? = some found → holds found offset →
        other ≠ index → found.startByte < unit.startByte := by
  have hsearched := searched_enclosing units offset
  have hlength {other : Nat} {found : Metrics.Unit} (hfound : units[other]? = some found) :
      other < units.length := (List.getElem?_eq_some_iff.mp hfound).1
  have hinjective {i j : Nat} {x y : Metrics.Unit} (hx : units[i]? = some x)
      (hy : units[j]? = some y) (heq : x.startByte = y.startByte) : i = j := by
    refine (List.getElem?_inj (by rw [List.length_map]; exact hlength hx) hstarts).mp ?_
    rw [List.getElem?_map, List.getElem?_map, hx, hy, Option.map_some, Option.map_some, heq]
  constructor
  · intro hsome
    rw [hsome] at hsearched
    obtain ⟨unit, hinnermost⟩ := hsearched
    refine ⟨unit, hinnermost.at_index, hinnermost.holds, fun other found hfound hin hne => ?_⟩
    rcases hinnermost.greatest other found (hlength hfound) hfound hin with hlt | ⟨heq, -⟩
    · exact hlt
    · exact absurd (hinjective hfound hinnermost.at_index heq) hne
  · rintro ⟨unit, hunit, hholds, hgreatest⟩
    cases hbest : enclosing units offset with
    | none =>
      rw [hbest] at hsearched
      exact absurd hholds (hsearched index unit (hlength hunit) hunit)
    | some best =>
      rw [hbest] at hsearched
      obtain ⟨kept, hkept⟩ := hsearched
      refine congrArg some (by_contra fun hne => ?_)
      have hless := hgreatest best kept hkept.at_index hkept.holds hne
      rcases hkept.greatest index unit (hlength hunit) hunit hholds with hlt | ⟨heq, -⟩
      · omega
      · omega

end Agentless.Checks
