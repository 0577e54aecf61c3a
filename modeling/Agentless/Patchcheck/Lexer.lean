import Mathlib.Data.List.DropRight
import Agentless.Text.Word

/-!
# The bracket scanner of the patch checks

The arity and reference checks read the call sites of a block of Python. The scanner gives each
character the depth of its bracket, and one depth of their own to the characters of string literals
and comments. A replacement field of an f-string may hold a literal, so that scan keeps a stack.
-/

namespace Agentless.Patchcheck

open Text

def quotes : List Char := ['"', '\'']
def opening : List Char := ['(', '[', '{']
def closing : List Char := [')', ']', '}']
def comment : Char := '#'
def stringPrefixes : List Char := ['r', 'R', 'b', 'B', 'u', 'U', 'f', 'F']
def triple : Nat := 3

/-- The depth of a character inside a string literal or a comment. An unbalanced closing bracket
also takes the text below depth 0, so -1 can mean either, as in the reference scanner. -/
def insideString : Int := -1

/-! ## Literals -/

/-- Where the needle, which is not empty, first stands. -/
def position (needle : Text) : Text → Option Nat
  | [] => none
  | c :: rest =>
    if needle.isPrefixOf (c :: rest) then some 0 else (position needle rest).map (· + 1)

def find (text needle : Text) (from_ : Nat) : Option Nat :=
  if from_ ≤ text.length then (position needle (text.drop from_)).map (· + from_) else none

/-- How many characters a one-line string takes up to its closing quote or the line's end. -/
def closed (quote : Char) : Text → Option Nat
  | [] => none
  | [c] => if c ≠ '\\' ∧ (c = quote ∨ c = '\n') then some 1 else none
  | c :: next :: rest =>
    if c = '\\' then (closed quote rest).map (· + 2)
    else if c = quote ∨ c = '\n' then some 1
    else (closed quote (next :: rest)).map (· + 1)

/-- `none` is a slice out of range, which never comes up. -/
def plainEnd (text : Text) (start marker : Nat) : Option Nat :=
  if marker = triple then
    if start + triple ≤ text.length then
      let quote := (text.drop start).take triple
      some (((find text quote (start + triple)).map (· + triple)).getD text.length)
    else none
  else
    match text.drop start with
    | [] => none
    | quote :: rest => some (((closed quote rest).map (start + 1 + ·)).getD text.length)

/-- Whether the literal has an `f` among its prefix letters, and no word character before them. -/
def opensFstring (text : Text) (start : Nat) : Bool :=
  let before := (text.take start).rdropWhile stringPrefixes.contains
  let letters := (text.take start).rtakeWhile stringPrefixes.contains
  if before.getLast?.any isWord then false else letters.any fun c => c = 'f' || c = 'F'

/-- A string literal at a quote, by the length of its quote marker. -/
inductive Literal where
  | plain (marker : Nat)
  | formatted (marker : Nat)
deriving DecidableEq, Repr

def opensTriple (text : Text) (start : Nat) : Bool :=
  match (text.drop start).take triple with
  | [first, second, third] => quotes.contains first && second = first && third = first
  | _ => false

def literalAt (text : Text) (start : Nat) : Literal :=
  let marker := if opensTriple text start then triple else 1
  if opensFstring text start then .formatted marker else .plain marker

/-- One f-string being scanned: where its quote marker starts, the marker's length, the scan
position, and the replacement-field depth. -/
structure Frame where
  start : Nat
  marker : Nat
  index : Nat
  depth : Nat
deriving DecidableEq, Repr

def Frame.opened (start marker : Nat) : Frame := ⟨start, marker, start + marker, 0⟩

inductive Step where
  | advance (index depth : Nat)
  | nested (frame : Frame)
  | ended (index : Nat)
deriving DecidableEq, Repr

def Frame.skip (frame : Frame) (by_ : Nat) : Step := .advance (frame.index + by_) frame.depth

/-- A doubled brace is an escaped one only in the literal portion. -/
def braceStep (text : Text) (frame : Frame) (c : Char) : Step :=
  if frame.depth = 0 ∧ text[frame.index + 1]? = some c then frame.skip 2
  else .advance (frame.index + 1) (if c = '{' then frame.depth + 1 else frame.depth - 1)

/-- Inside a field a quote opens a literal of its own; outside one a line break ends a one-line
f-string. -/
def fieldStep (text : Text) (frame : Frame) (c : Char) : Option Step :=
  if 0 < frame.depth ∧ quotes.contains c then
    match literalAt text frame.index with
    | .formatted nested => some (.nested (.opened frame.index nested))
    | .plain nested =>
      (plainEnd text frame.index nested).map fun index => .advance index frame.depth
  else if c = '\n' ∧ frame.marker ≠ triple then some (.ended (frame.index + 1))
  else some (frame.skip 1)

def fstringStep (text : Text) (frame : Frame) : Option Step :=
  match text.drop frame.index with
  | [] => some (.ended text.length)
  | c :: rest =>
    if c = '\\' then some (frame.skip 2)
    else if text.length < frame.start + frame.marker then none
    else if frame.depth = 0 ∧
        ((text.drop frame.start).take frame.marker).isPrefixOf (c :: rest) then
      some (.ended (frame.index + frame.marker))
    else if c = '{' ∨ c = '}' then some (braceStep text frame c)
    else fieldStep text frame c

/-! The steps go forward, so the scan ends. -/

section Forward

variable {text : Text} {start marker stop : Nat} {frame : Frame} {step : Step}

theorem position_le {needle rest : Text} {at_ : Nat} (h : position needle rest = some at_) :
    at_ + needle.length ≤ rest.length := by
  induction rest generalizing at_ with
  | nil => cases h
  | cons c rest ih =>
    unfold position at h
    split_ifs at h with hhere
    · cases h
      rw [Nat.zero_add]
      exact (List.isPrefixOf_iff_prefix.mp hhere).length_le
    · obtain ⟨before, hbefore, rfl⟩ := Option.map_eq_some_iff.mp h
      have hle := ih hbefore
      rw [List.length_cons]
      omega

theorem find_le {needle : Text} (h : find text needle start = some stop) :
    start ≤ stop ∧ stop + needle.length ≤ text.length := by
  unfold find at h
  split_ifs at h
  obtain ⟨at_, hat, rfl⟩ := Option.map_eq_some_iff.mp h
  have hle := position_le hat
  rw [List.length_drop] at hle
  omega

theorem closed_le {quote : Char} {rest : Text} {size : Nat} (h : closed quote rest = some size) :
    0 < size ∧ size ≤ rest.length := by
  fun_induction closed quote rest generalizing size with
  | case1 => cases h
  | case2 =>
    cases h
    simp
  | case3 => cases h
  | case4 next rest ih =>
    obtain ⟨inner, hinner, rfl⟩ := Option.map_eq_some_iff.mp h
    have hle := ih hinner
    simp only [List.length_cons]
    omega
  | case5 =>
    cases h
    simp
  | case6 c next rest _ _ ih =>
    obtain ⟨inner, hinner, rfl⟩ := Option.map_eq_some_iff.mp h
    have hle := ih hinner
    simp only [List.length_cons] at hle ⊢
    omega

theorem plainEnd_bounds (h : plainEnd text start marker = some stop) :
    start < stop ∧ stop ≤ text.length := by
  unfold plainEnd at h
  split_ifs at h with hmarker hfits
  · obtain rfl := Option.some.inj h
    have htriple : ((text.drop start).take triple).length = triple := by
      rw [List.length_take, List.length_drop]
      omega
    cases hfind : find text ((text.drop start).take triple) (start + triple) with
    | none =>
      simp only [triple] at hfits
      exact ⟨by simp; omega, le_refl _⟩
    | some found =>
      have hle := find_le hfind
      rw [htriple] at hle
      simp only [Option.map_some, Option.getD_some]
      simp only [triple] at hle ⊢
      omega
  · split at h
    · cases h
    · next quote rest hrest =>
      have hlength := congrArg List.length hrest
      rw [List.length_drop, List.length_cons] at hlength
      obtain rfl := Option.some.inj h
      cases hclosed : closed quote rest with
      | none => exact ⟨by simp; omega, le_refl _⟩
      | some size =>
        have hle := closed_le hclosed
        exact ⟨by simp; omega, by simp; omega⟩

/-- How far the scan is after a step. -/
def Step.reached : Step → Nat
  | advance index _ => index
  | nested frame => frame.index
  | ended index => index

/-- A step moves the scan on, or ends it at the end of the text. -/
def Step.Forward (text : Text) (frame : Frame) : Step → Prop
  | advance index _ => frame.index < text.length ∧ frame.index < index
  | nested inner => frame.index < text.length ∧ frame.index < inner.index
  | ended index => frame.index ≤ index ∨ text.length ≤ index

theorem marker_pos (text : Text) (start : Nat) :
    ∃ marker, 0 < marker ∧
      (literalAt text start = .formatted marker ∨ literalAt text start = .plain marker) := by
  unfold literalAt
  dsimp only
  split_ifs
  · exact ⟨triple, by decide, .inl rfl⟩
  · exact ⟨1, by decide, .inl rfl⟩
  · exact ⟨triple, by decide, .inr rfl⟩
  · exact ⟨1, by decide, .inr rfl⟩

theorem fieldStep_forward {c : Char} (hindex : frame.index < text.length)
    (h : fieldStep text frame c = some step) : step.Forward text frame := by
  unfold fieldStep at h
  split_ifs at h with hquote hbreak
  · obtain ⟨marker, hpos, hliteral | hliteral⟩ := marker_pos text frame.index
    · rw [hliteral] at h
      cases h
      exact ⟨hindex, Nat.lt_add_of_pos_right hpos⟩
    · rw [hliteral] at h
      obtain ⟨stop, hstop, rfl⟩ := Option.map_eq_some_iff.mp h
      exact ⟨hindex, (plainEnd_bounds hstop).1⟩
  · cases h
    exact .inl (Nat.le_succ _)
  · cases h
    exact ⟨hindex, Nat.lt_succ_self _⟩

theorem braceStep_forward {c : Char} (hindex : frame.index < text.length) :
    (braceStep text frame c).Forward text frame := by
  unfold braceStep Frame.skip
  split_ifs
  · exact ⟨hindex, Nat.lt_add_of_pos_right (by decide)⟩
  · exact ⟨hindex, Nat.lt_succ_self _⟩
  · exact ⟨hindex, Nat.lt_succ_self _⟩

theorem fstringStep_forward (h : fstringStep text frame = some step) : step.Forward text frame := by
  unfold fstringStep at h
  split at h
  · cases h
    exact .inr (le_refl _)
  · next c rest hrest =>
    have hindex : frame.index < text.length := by
      by_contra hle
      rw [List.drop_eq_nil_of_le (not_lt.mp hle)] at hrest
      cases hrest
    split_ifs at h
    · cases h
      exact ⟨hindex, Nat.lt_add_of_pos_right (by decide)⟩
    · cases h
      exact .inl (Nat.le_add_right _ _)
    · cases h
      exact braceStep_forward hindex
    · exact fieldStep_forward hindex h

end Forward

/-- A replacement field may hold a literal of its own, so the scan keeps a stack of f-strings
instead of recursing: an untrusted block cannot exhaust the call stack. -/
def fstringEnd (text : Text) (frame : Frame) (outer : List Frame) : Option Nat :=
  match _hstep : fstringStep text frame with
  | none => none
  | some (.advance index depth) => fstringEnd text { frame with index, depth } outer
  | some (.nested inner) => fstringEnd text inner (frame :: outer)
  | some (.ended stop) =>
    match outer with
    | [] => some stop
    | frame :: outer => fstringEnd text { frame with index := stop } outer
termination_by 2 * (text.length - frame.index) + outer.length
decreasing_by
  all_goals have hforward := fstringStep_forward _hstep
  · have hstep : _ ∧ _ := hforward
    omega
  · have hstep : _ ∧ _ := hforward
    simp only [List.length_cons]
    omega
  · have hstep : _ ∨ _ := hforward
    simp only [List.length_cons]
    omega

/-- The index just past the string or comment that starts at `start`. -/
def literalEnd (text : Text) (start : Nat) : Option Nat :=
  if text[start]? = some comment then some ((find text ['\n'] start).getD text.length)
  else
    match literalAt text start with
    | .formatted marker => fstringEnd text (.opened start marker) []
    | .plain marker => plainEnd text start marker

/-! ## Depths -/

/-- The depth of each character from `index` on, or `none` inside a literal: an opening bracket
carries the depth inside it and a closing one the depth it closes. A literal that ends outside the
text, or where it starts, never comes up. -/
def marksFrom (text : Text) (index : Nat) (depth : Int) : Option (List (Option Int)) :=
  if h : index < text.length then
    let c := text[index]
    if quotes.contains c || c = comment then
      match literalEnd text index with
      | none => none
      | some stop =>
        if index < stop ∧ stop ≤ text.length then
          (marksFrom text stop depth).map (List.replicate (stop - index) none ++ ·)
        else none
    else if opening.contains c then
      (marksFrom text (index + 1) (depth + 1)).map (some (depth + 1) :: ·)
    else if closing.contains c then
      (marksFrom text (index + 1) (depth - 1)).map (some depth :: ·)
    else (marksFrom text (index + 1) depth).map (some depth :: ·)
  else some []
termination_by text.length - index

def marks (text : Text) : Option (List (Option Int)) := marksFrom text 0 0

/-- The bracket depth of each character. -/
def structure_ (text : Text) : Option (List Int) :=
  (marks text).map fun marks => marks.map fun mark => mark.getD insideString

/-- The text between the bracket at `offset` and the next closing bracket at its depth. -/
def innerSpan (text : Text) (depths : List Int) (offset : Nat) : Option Text := do
  let wanted ← depths[offset]?
  if wanted = insideString then none
  else
    let close ← (List.range' (offset + 1) (text.length - (offset + 1))).find? fun index =>
      text[index]?.any closing.contains && depths[index]? = some wanted
    return (text.take close).drop (offset + 1)

/-- The parts of a text between the commas at one depth, each stripped. -/
def splitCommas (depth : Int) (part : Text) : List (Char × Int) → List Text
  | [] => [strip part]
  | (c, level) :: rest =>
    if c = ',' ∧ level = depth then strip part :: splitCommas depth [] rest
    else splitCommas depth (part ++ [c]) rest

/-- The text split on the commas outside every bracket and string. -/
def splitTopLevel (text : Text) : Option (List Text) :=
  (structure_ text).map fun depths => splitCommas 0 [] (text.zip depths)

end Agentless.Patchcheck
