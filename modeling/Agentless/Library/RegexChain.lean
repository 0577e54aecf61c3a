import Agentless.Library.Regex

/-!
# Chains of regular expressions

Expressions that match one after the other, each in a group of its own. The ways to match them stand
in the order in which a backtracking matcher tries them, each way with the lengths of its parts.
-/

namespace Agentless.Regex

variable {χ : Type}

section Spans

variable (word : χ → Bool) (text : List χ)

def spans : List (Regex χ) → Mark → List (List Nat)
  | [], _ => [[]]
  | regex :: rest, mark =>
    (outcomes word text regex mark).flatMap fun next =>
      (spans rest next).map ((next.pos - mark.pos) :: ·)

/-- The lengths of the first match. -/
def firstSpans (regexes : List (Regex χ)) (pos : Nat) : Option (List Nat) :=
  (spans word text regexes ⟨pos, none⟩).head?

end Spans

/-- Lengths that cut the text from a position on into one piece of each language. -/
def Pieces (text : List χ) : List (Regex χ) → Nat → List Nat → Prop
  | [], _, [] => True
  | regex :: rest, pos, length :: lengths =>
    pos + length ≤ text.length ∧ slice text pos (pos + length) ∈ language regex ∧
      Pieces text rest (pos + length) lengths
  | _, _, _ => False

variable {word : χ → Bool} {text : List χ}

/-! ## Ways and outcomes -/

/-- A matcher goes on from each outcome of the first expression and takes the first way that is
left. -/
theorem head?_spans_cons (regex : Regex χ) (rest : List (Regex χ)) (mark : Mark) :
    (spans word text (regex :: rest) mark).head? =
      (outcomes word text regex mark).findSome? fun next =>
        ((spans word text rest next).head?).map ((next.pos - mark.pos) :: ·) := by
  rw [spans, List.head?_flatMap]
  congr 1
  funext next
  exact List.head?_map

/-- The outcomes of a plain expression are its pieces that stand at the position. -/
theorem Plain.mem_outcomes {regex : Regex χ} (h : Plain regex) {mark last : Mark}
    (hmark : mark.pos ≤ text.length) :
    last ∈ outcomes word text regex mark ↔ ∃ length, last = mark.advance length ∧
      mark.pos + length ≤ text.length ∧
      slice text mark.pos (mark.pos + length) ∈ language regex := by
  rw [h.exact mark last]
  constructor
  · rintro ⟨piece, hpiece, hstands, rfl⟩
    have hlength := hstands.length_le
    rw [List.length_drop] at hlength
    refine ⟨piece.length, rfl, by omega, ?_⟩
    rw [slice, Nat.add_sub_cancel_left, ← List.prefix_iff_eq_take.mp hstands]
    exact hpiece
  · rintro ⟨length, rfl, hlength, hpiece⟩
    refine ⟨_, hpiece, List.take_prefix _ _, ?_⟩
    rw [length_slice hlength, Nat.add_sub_cancel_left]

/-! ## Pieces -/

theorem mem_spans {regexes : List (Regex χ)} (hplain : ∀ regex ∈ regexes, Plain regex) {mark : Mark}
    (hmark : mark.pos ≤ text.length) {lengths : List Nat} :
    lengths ∈ spans word text regexes mark ↔ Pieces text regexes mark.pos lengths := by
  induction regexes generalizing mark lengths with
  | nil => cases lengths <;> simp [spans, Pieces]
  | cons regex rest ih =>
    obtain ⟨hregex, hrest⟩ := List.forall_mem_cons.mp hplain
    rw [spans, List.mem_flatMap]
    constructor
    · rintro ⟨next, hnext, hlengths⟩
      obtain ⟨length, rfl, hlength, hpiece⟩ := (hregex.mem_outcomes hmark).mp hnext
      obtain ⟨later, hlater, rfl⟩ := List.mem_map.mp hlengths
      have hadvance : (mark.advance length).pos - mark.pos = length := Nat.add_sub_cancel_left _ _
      rw [hadvance]
      exact ⟨hlength, hpiece, (ih hrest hlength).mp hlater⟩
    · intro h
      cases lengths with
      | nil => exact h.elim
      | cons length later =>
        obtain ⟨hlength, hpiece, hlater⟩ := h
        refine ⟨mark.advance length, (hregex.mem_outcomes hmark).mpr ⟨_, rfl, hlength, hpiece⟩, ?_⟩
        refine List.mem_map.mpr ⟨later, (ih hrest hlength).mpr hlater, ?_⟩
        exact congrArg (· :: later) (Nat.add_sub_cancel_left _ _)

theorem pieces_of_firstSpans {regexes : List (Regex χ)} (hplain : ∀ regex ∈ regexes, Plain regex)
    {pos : Nat} (hpos : pos ≤ text.length) {lengths : List Nat}
    (h : firstSpans word text regexes pos = some lengths) : Pieces text regexes pos lengths :=
  (@mem_spans _ _ _ _ hplain ⟨pos, none⟩ hpos _).mp (List.mem_of_mem_head? h)

theorem Pieces.length_eq {regexes : List (Regex χ)} {pos : Nat} {lengths : List Nat}
    (h : Pieces text regexes pos lengths) : lengths.length = regexes.length := by
  induction regexes generalizing pos lengths with
  | nil =>
    cases lengths with
    | nil => rfl
    | cons length later => exact h.elim
  | cons regex rest ih =>
    cases lengths with
    | nil => exact h.elim
    | cons length later => exact congrArg (· + 1) (ih h.2.2)

theorem Pieces.take {regexes : List (Regex χ)} {pos : Nat} {lengths : List Nat}
    (h : Pieces text regexes pos lengths) (count : Nat) :
    Pieces text (regexes.take count) pos (lengths.take count) := by
  induction count generalizing regexes pos lengths with
  | zero =>
    rw [List.take_zero, List.take_zero]
    trivial
  | succ count ih =>
    cases regexes with
    | nil =>
      cases lengths with
      | nil => trivial
      | cons length later => exact h.elim
    | cons regex rest =>
      cases lengths with
      | nil => exact h.elim
      | cons length later => exact ⟨h.1, h.2.1, ih h.2.2⟩

theorem slice_drop (start : Nat) (pos stop : Nat) :
    slice (text.drop start) pos stop = slice text (start + pos) (start + stop) := by
  rw [slice, slice, List.drop_drop, Nat.add_sub_add_left]

/-- Pieces of the rest of a text are pieces of the text. -/
theorem pieces_drop {regexes : List (Regex χ)} {start pos : Nat} {lengths : List Nat}
    (hstart : start ≤ text.length) :
    Pieces (text.drop start) regexes pos lengths ↔ Pieces text regexes (start + pos) lengths := by
  induction regexes generalizing pos lengths with
  | nil => cases lengths <;> rfl
  | cons regex rest ih =>
    cases lengths with
    | nil => rfl
    | cons length later =>
      have hroom : pos + length ≤ text.length - start ↔ start + (pos + length) ≤ text.length := by
        omega
      rw [Pieces, Pieces, List.length_drop, slice_drop, ih, hroom, Nat.add_assoc]

end Agentless.Regex
