import Agentless.Library.Text

/-!
# Message templates

A template is a list of pieces, and a message is a template with its values filled in. A count
chooses between two forms.
-/

namespace Agentless.Prompts

inductive Piece where
  | text (literal : Text)
  | value (position : Nat)
  /-- The position of a count, its form for a count of one, and its form for any other count. -/
  | choice (position : Nat) (one many : Text)
deriving DecidableEq, Repr

/-- The text of one value, and whether the value is a count of one. -/
structure Filled where
  text : Text
  one : Bool
deriving DecidableEq, Repr

def Filled.ofText (text : Text) : Filled := ⟨text, false⟩

def Filled.ofCount (count : Nat) : Filled := ⟨Nat.toDigits 10 count, count = 1⟩

def Piece.filled (values : List Filled) : Piece → Text
  | .text literal => literal
  | .value position => ((values[position]?).map Filled.text).getD []
  | .choice position one many => if (values[position]?).any Filled.one then one else many

def fill (pieces : List Piece) (values : List Filled) : Text := pieces.flatMap (Piece.filled values)

/-! ## The messages that a budget measures -/

def mapSymbolsUnlisted : List Piece :=
  [.text "... ".toList, .value 0, .text " more ".toList,
    .choice 0 "symbol".toList "symbols".toList, .text " in this file not listed".toList]

def mapFileUnreached : List Piece :=
  [.text "... ".toList, .value 0, .text " ".toList, .choice 0 "symbol".toList "symbols".toList,
    .text (" in this file; the focus has no reference path to it, so no " ++
      "budget shows ").toList,
    .choice 0 "it".toList "them".toList]

def stableIdsPattern : List Piece := [.text "stable ids: ".toList, .value 0]

def expandBodyTruncated : List Piece :=
  [.text "... ".toList, .value 0, .text " of ".toList, .value 1,
    .text (" lines shown: the batch did not fit the output ceiling. Expand " ++
      "this id on its own for the whole body.").toList]

def historyBodyTruncated : List Piece :=
  [.text "... ".toList, .value 1, .text " of ".toList, .value 2,
    .text " body lines shown for ".toList, .value 0, .text "; git show -s --format=%B ".toList,
    .value 0, .text " prints the whole message".toList]

/-! ## The characters of a message -/

/-- Whether the literals of a piece have only characters of one kind. -/
def Piece.all (kind : Char → Bool) : Piece → Bool
  | .text literal => literal.all kind
  | .value _ => true
  | .choice _ one many => one.all kind && many.all kind

theorem forall_mem_fill {kind : Char → Bool} {pieces : List Piece} {values : List Filled}
    (hpieces : pieces.all (Piece.all kind)) (hvalues : ∀ value ∈ values, value.text.all kind) :
    ∀ c ∈ fill pieces values, kind c := by
  intro c hc
  obtain ⟨piece, hpiece, hfilled⟩ := List.mem_flatMap.mp hc
  have hall := List.all_eq_true.mp hpieces piece hpiece
  cases piece with
  | text literal => exact List.all_eq_true.mp hall c hfilled
  | value position =>
    cases hvalue : values[position]? with
    | none => simp [Piece.filled, hvalue] at hfilled
    | some value =>
      have hc : c ∈ value.text := by simpa [Piece.filled, hvalue] using hfilled
      exact List.all_eq_true.mp (hvalues value (List.mem_of_getElem? hvalue)) c hc
  | choice position one many =>
    obtain ⟨hone, hmany⟩ := Bool.and_eq_true_iff.mp hall
    simp only [Piece.filled] at hfilled
    split at hfilled
    · exact List.all_eq_true.mp hone c hfilled
    · exact List.all_eq_true.mp hmany c hfilled

/-! ## How long the messages are -/

theorem length_toDigits_succ_le (n : Nat) :
    (Nat.toDigits 10 (n + 1)).length ≤ (Nat.toDigits 10 n).length + 1 := by
  have hpos : 0 < (Nat.toDigits 10 n).length := Nat.length_toDigits_pos
  have hlt : n < 10 ^ (Nat.toDigits 10 n).length :=
    (Nat.length_toDigits_le_iff (by omega) hpos).mp (le_refl _)
  apply (Nat.length_toDigits_le_iff (by omega) (by omega)).mpr
  calc n + 1 < 10 ^ (Nat.toDigits 10 n).length + 1 := by omega
    _ ≤ 10 ^ (Nat.toDigits 10 n).length * 10 := by omega
    _ = 10 ^ ((Nat.toDigits 10 n).length + 1) := (pow_succ _ _).symm

theorem length_toDigits_mono {m n : Nat} (h : m ≤ n) :
    (Nat.toDigits 10 m).length ≤ (Nat.toDigits 10 n).length := by
  have hpos : 0 < (Nat.toDigits 10 n).length := Nat.length_toDigits_pos
  apply (Nat.length_toDigits_le_iff (by omega) hpos).mpr
  exact h.trans_lt ((Nat.length_toDigits_le_iff (by omega) hpos).mp (le_refl _))

end Agentless.Prompts
