import Agentless.Facts.Values
import Agentless.Graph.StableId
import Agentless.Library.Lines
import Agentless.Prompts.Template
import Agentless.Text.Textsafe

/-!
# The row grammar

The fragments that every text answer shares, and the size of a text made of rows.
-/

namespace Agentless.App

open Agentless.Graph Prompts Text

def rowIndent : Text := "  ".toList

/-- What the id pattern of a grouped view stands in for the symbol's own name. -/
def qualifiedNamePlaceholder : Text := "<QualifiedName>".toList

/-- The bracketed id that a row is read for, linked to `parent` when it is not empty, and followed
by its line when one is given. -/
def locator (id parent : Text) (line : Option Text) : Text :=
  let named := if parent = [] then oneLine id
    else oneLine id ++ " -> ".toList ++ oneLine parent
  match line with
  | some line => '[' :: named ++ "] @".toList ++ line
  | none => '[' :: named ++ "]".toList

/-- The id pattern under the header of `path`, or nothing when the language prefix is empty. -/
def stableIdsLine (langPrefix path : Text) : Text :=
  if langPrefix = [] then []
  else
    let pattern := (StableId.mk langPrefix path qualifiedNamePlaceholder).display
    rowIndent ++ fill stableIdsPattern [.ofText (oneLine pattern)]

/-- The default estimate: one token per four code points, rounded down. -/
def chars4 (text : Text) : Nat := text.length / 4

theorem chars4_le_iff {text : Text} {budget : Nat} :
    chars4 text ≤ budget ↔ text.length < 4 * (budget + 1) := by
  unfold chars4
  omega

/-! ## Sizes of joined texts -/

/-- The characters of some lines, each with the line break after it. -/
def linesSize (lines : List Text) : Nat := (lines.map fun line => line.length + 1).sum

@[simp] theorem linesSize_nil : linesSize [] = 0 := rfl

@[simp] theorem linesSize_cons (line : Text) (lines : List Text) :
    linesSize (line :: lines) = line.length + 1 + linesSize lines := rfl

@[simp] theorem linesSize_append (lines more : List Text) :
    linesSize (lines ++ more) = linesSize lines + linesSize more := by
  simp [linesSize]

theorem length_intercalate {separator : Text} {texts : List Text} (h : texts ≠ []) :
    (separator.intercalate texts).length + separator.length =
      (texts.map fun text => text.length + separator.length).sum := by
  induction texts with
  | nil => exact absurd rfl h
  | cons text texts ih =>
    cases texts with
    | nil => simp
    | cons next texts =>
      have hnext := ih (List.cons_ne_nil _ _)
      rw [List.intercalate_cons_cons, List.map_cons, List.sum_cons, ← hnext]
      simp only [List.length_append]
      omega

theorem length_joinLines {lines : List Text} (h : lines ≠ []) :
    (joinLines lines).length + 1 = linesSize lines := length_intercalate h

theorem linesSize_take_le (lines : List Text) {m n : Nat} (h : m ≤ n) :
    linesSize (lines.take m) ≤ linesSize (lines.take n) := by
  obtain ⟨more, hmore⟩ := List.take_prefix_take_left (l := lines) h
  rw [← hmore, linesSize_append]
  exact Nat.le_add_right _ _

/-- More lines never measure less. -/
theorem monotone_chars4_joinLines_take (lines : List Text) :
    Monotone fun kept => chars4 (joinLines (lines.take kept)) := by
  intro m n h
  refine Nat.div_le_div_right ?_
  obtain hnil | hne := eq_or_ne (lines.take m) []
  · simp [hnil]
  · have hle := linesSize_take_le lines h
    have hne' : lines.take n ≠ [] := fun hnil =>
      hne (List.eq_nil_of_prefix_nil (hnil ▸ List.take_prefix_take_left h))
    rw [← length_joinLines hne, ← length_joinLines hne'] at hle
    omega

end Agentless.App

/-!
## Symbol cards

The card that every view shows for one symbol, the rationale nodes linked to a symbol, and the
text form of the cards, which the body budget measures.
-/

namespace Agentless.App

open Facts Agentless.Graph Prompts Syntax Text

structure SymbolCard where
  stableId : Text
  startLine : Nat
  endLine : Nat
  kind : Text
  signature : Text
  parentClass : Text
  body : Text
  bodyShown : Nat
  bodyTotal : Nat
deriving DecidableEq, Repr

structure RationaleNode where
  stableId : Text
  parentId : Text
  line : Nat
  kind : RationaleKind
  text : Text
deriving DecidableEq, Repr

def rationaleNodes (language : Language) (path : Text) (symbol : Declared) : List RationaleNode :=
  symbol.rationales.map fun rationale =>
    { stableId := rationaleHandle language path symbol.toSymbol rationale
      parentId := Graph.stableId language path symbol.toSymbol
      line := rationale.line
      kind := rationale.kind
      text := rationale.text }

/-- A reader splits the qualified name at its last dot, which finds the owner unless the symbol's
own name holds a dot. -/
def spellsOwner (card : SymbolCard) : Bool :=
  match StableId.parse card.stableId with
  | .error _ => false
  | .ok id =>
    let (base, _) := splitOrdinal id.qualname
    (card.parentClass ++ ['.']).isPrefixOf base &&
      !(base.drop (card.parentClass.length + 1)).contains '.'

/-- A method's owner is its class. The owner of a nested function can be a function, which reads
"in". -/
def ownerClause (card : SymbolCard) : Text :=
  if card.parentClass = [] || spellsOwner card then []
  else
    let holder := if card.kind = "method".toList then "in class".toList else "in".toList
    ' ' :: holder ++ ' ' :: oneLine card.parentClass

/-- The locator of a card, and the row of its kind and of an owner that the id cannot spell. -/
def cardHead (card : SymbolCard) : List Text :=
  let span := if card.startLine = card.endLine then Nat.toDigits 10 card.startLine
    else Nat.toDigits 10 card.startLine ++ '-' :: Nat.toDigits 10 card.endLine
  [locator card.stableId [] (some span), rowIndent ++ oneLine card.kind ++ ownerClause card]

def cardRow (line : Text) : Text := rowIndent ++ oneLine line

def cardText (card : SymbolCard) : Text :=
  let rows := if card.body = [] then [cardRow card.signature]
    else (splitLines card.body).map cardRow
  joinLines (cardHead card ++ rows)

/-- The text of some cards, a blank line between two of them. -/
def cardsText (cards : List SymbolCard) : Text :=
  if cards = [] then "no matching symbols\n".toList
  else "\n\n".toList.intercalate (cards.map cardText) ++ ['\n']

end Agentless.App
