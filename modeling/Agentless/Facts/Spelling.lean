import Agentless.Text.Word

/-!
# Names and signatures as the index shows them

A signature is an index row on one line, not a rendering of the declaration: its white space is
collapsed and the row is cut at a limit. The words are joined only until the cut is decided.
-/

namespace Agentless.Facts

open Agentless.Text

def signatureMaxChars : Nat := 80

def ellipsis : Text := "...".toList

/-- The text within the limit, and else what leaves room for the ellipsis. -/
def truncate (text : Text) (limit : Nat) : Text :=
  if text.length ≤ limit then text else text.take (limit - ellipsis.length) ++ ellipsis

/-- `chars` counts the characters of `joined`. -/
def joinWords (joined : Text) (chars : Nat) : List Text → Text
  | [] => joined
  | word :: words =>
    if signatureMaxChars < chars then joined
    else
      let (joined, chars) := if joined ≠ [] then (joined ++ [' '], chars + 1) else (joined, chars)
      joinWords (joined ++ word) (chars + word.length) words

def normaliseSignature (signature : Text) : Text :=
  truncate (joinWords [] 0 (splitWhitespace signature)) signatureMaxChars

/-! ## Collapsed white space -/

/-- What stands before a character: nothing yet, a word, or white space after a word. -/
inductive Before where
  | opening | word | space
deriving DecidableEq

/-- White space between words is one space, and that at the ends is dropped. -/
def collapseFrom : Before → Text → Text
  | _, [] => []
  | before, c :: rest =>
    if isSpace c then collapseFrom (if before = .opening then .opening else .space) rest
    else if before = .space then ' ' :: c :: collapseFrom .word rest
    else c :: collapseFrom .word rest

def collapse (text : Text) : Text := collapseFrom .opening text

/-- The words as they follow another word. -/
def spaced (words : List Text) : Text := words.flatMap (' ' :: ·)

theorem intercalate_eq_spaced (word : Text) (words : List Text) :
    [' '].intercalate (word :: words) = word ++ spaced words := by
  induction words generalizing word with
  | nil => simp [spaced]
  | cons next words ih => simp [List.intercalate_cons_cons, ih, spaced]

theorem collapseFrom_word (text : Text) :
    ∃ field fields, text.splitOnP isSpace = field :: fields ∧
      collapseFrom .word text = field ++ spaced (fields.filter (· ≠ [])) ∧
      collapseFrom .space text = spaced ((field :: fields).filter (· ≠ [])) := by
  induction text with
  | nil => exact ⟨[], [], List.splitOnP_nil, rfl, rfl⟩
  | cons c rest ih =>
    obtain ⟨field, fields, hsplit, hword, hspace⟩ := ih
    rw [List.splitOnP_cons_eq_if_modifyHead, hsplit]
    by_cases hc : isSpace c
    · refine ⟨[], field :: fields, by rw [if_pos hc], ?_, ?_⟩
      · simpa [collapseFrom, hc] using hspace
      · simpa [collapseFrom, hc] using hspace
    · refine ⟨c :: field, fields, by rw [if_neg hc]; rfl, ?_, ?_⟩
      · simpa [collapseFrom, hc] using hword
      · simpa [collapseFrom, hc, spaced] using hword

theorem collapse_eq (text : Text) : collapse text = [' '].intercalate (splitWhitespace text) := by
  unfold collapse splitWhitespace
  induction text with
  | nil => rfl
  | cons c rest ih =>
    rw [List.splitOnP_cons_eq_if_modifyHead]
    by_cases hc : isSpace c
    · simpa [collapseFrom, hc] using ih
    · obtain ⟨field, fields, hsplit, hword, -⟩ := collapseFrom_word rest
      have hopening : collapseFrom .opening (c :: rest) = c :: collapseFrom .word rest := by
        simp [collapseFrom, hc]
      have hfields : ((c :: field) :: fields).filter (· ≠ []) =
          (c :: field) :: fields.filter (· ≠ []) := by simp
      rw [if_neg hc, hsplit, List.modifyHead_cons, hfields, intercalate_eq_spaced, hopening, hword,
        List.cons_append]

/-! ## The early stop -/

/-- A text over the limit is cut the same whatever follows it. -/
theorem truncate_append {text : Text} {limit : Nat} (h : limit < text.length) (more : Text) :
    truncate (text ++ more) limit = truncate text limit := by
  have hboth : ¬ (text ++ more).length ≤ limit := by
    rw [List.length_append]
    omega
  rw [truncate, truncate, if_neg hboth, if_neg (by omega),
    List.take_append_of_le_length (by omega)]

/-- The join goes on from a text that is not empty, and stops only when the cut is decided. -/
theorem truncate_joinWords {joined : Text} (h : joined ≠ []) (words : List Text) :
    truncate (joinWords joined joined.length words) signatureMaxChars =
      truncate (joined ++ spaced words) signatureMaxChars := by
  induction words generalizing joined with
  | nil => simp [joinWords, spaced]
  | cons word words ih =>
    unfold joinWords
    split_ifs with hover
    · exact (truncate_append hover _).symm
    · have hnext : joined ++ [' '] ++ word ≠ [] := by simp
      have hlength : joined.length + 1 + word.length = (joined ++ [' '] ++ word).length := by
        simp only [List.length_append, List.length_singleton]
      have hspaced : joined ++ spaced (word :: words) = joined ++ [' '] ++ word ++ spaced words := by
        simp [spaced]
      dsimp only
      rw [hlength, ih hnext, hspaced]

/-- The early stop never changes the row: it is the cut of the whole text with its white space
collapsed. -/
theorem normaliseSignature_eq (signature : Text) :
    normaliseSignature signature = truncate (collapse signature) signatureMaxChars := by
  have hwords : ∀ word ∈ splitWhitespace signature, word ≠ [] := fun word hword => by
    simpa using (List.mem_filter.mp hword).2
  rw [normaliseSignature, collapse_eq]
  cases hsplit : splitWhitespace signature with
  | nil => rfl
  | cons word words =>
    have hfirst : joinWords [] 0 (word :: words) = joinWords word word.length words := by
      simp [joinWords]
    rw [hfirst, truncate_joinWords (hwords word (hsplit ▸ List.mem_cons_self)),
      intercalate_eq_spaced]

end Agentless.Facts
