import Agentless.Library.Sequence

/-!
# Lines of a text

A text is the join of its lines, and a list of lines is the split of its join, except that the
join of no line is also the join of one empty line.
-/

namespace Agentless

/-- The lines with a line break between them. -/
def joinLines (lines : List Text) : Text := List.intercalate ['\n'] lines

def splitLines (text : Text) : List Text := text.splitOn '\n'

/-- No line holds a line break. -/
def Unbroken (lines : List Text) : Prop := ∀ line ∈ lines, '\n' ∉ line

instance (lines : List Text) : Decidable (Unbroken lines) :=
  inferInstanceAs (Decidable (∀ line ∈ lines, '\n' ∉ line))

@[simp] theorem joinLines_nil : joinLines [] = [] := rfl

@[simp] theorem joinLines_singleton (line : Text) : joinLines [line] = line := by
  simp [joinLines]

theorem joinLines_cons {line : Text} {lines : List Text} (h : lines ≠ []) :
    joinLines (line :: lines) = line ++ '\n' :: joinLines lines := by
  simp [joinLines, List.intercalate_cons_of_ne_nil h]

theorem joinLines_append {lines more : List Text} (h : lines ≠ []) (h' : more ≠ []) :
    joinLines (lines ++ more) = joinLines lines ++ '\n' :: joinLines more := by
  induction lines with
  | nil => exact absurd rfl h
  | cons line lines ih =>
    cases lines with
    | nil => simp [joinLines_cons h']
    | cons next lines =>
      have hnext : next :: lines ≠ [] := List.cons_ne_nil next lines
      rw [List.cons_append, joinLines_cons (by simp), ih hnext, joinLines_cons hnext,
        List.append_assoc, List.cons_append]

theorem splitLines_joinLines {lines : List Text} (h : lines ≠ []) (hlines : Unbroken lines) :
    splitLines (joinLines lines) = lines :=
  List.splitOn_intercalate _ hlines h

@[simp] theorem joinLines_splitLines (text : Text) : joinLines (splitLines text) = text :=
  List.intercalate_splitOn _

theorem splitLines_ne_nil (text : Text) : splitLines text ≠ [] := by
  simp [splitLines]

theorem unbroken_splitLines (text : Text) : Unbroken (splitLines text) :=
  fun _ => Sequence.notMem_of_mem_splitOn

theorem splitLines_line {line : Text} (h : '\n' ∉ line) : splitLines line = [line] :=
  List.splitOn_eq_singleton h

theorem unbroken_append {lines more : List Text} :
    Unbroken (lines ++ more) ↔ Unbroken lines ∧ Unbroken more := List.forall_mem_append

theorem joinLines_eq_nil {lines : List Text} : joinLines lines = [] ↔ lines = [] ∨ lines = [[]] := by
  match lines with
  | [] => simp
  | [line] => simp
  | line :: next :: lines => simp [joinLines_cons]

/-- The join tells lists of lines apart, when neither is empty. -/
theorem joinLines_inj {lines lines' : List Text} (h : lines ≠ []) (h' : lines' ≠ [])
    (hlines : Unbroken lines) (hlines' : Unbroken lines') :
    joinLines lines = joinLines lines' ↔ lines = lines' := by
  constructor
  · intro heq
    rw [← splitLines_joinLines h hlines, heq, splitLines_joinLines h' hlines']
  · rintro rfl
    rfl

/-! ## Whole lines inside a text -/

/-- Each line after its own line break. -/
def started (lines : List Text) : Text := lines.flatMap ('\n' :: ·)

@[simp] theorem started_nil : started [] = [] := rfl

theorem started_cons (line : Text) (lines : List Text) :
    started (line :: lines) = '\n' :: (line ++ started lines) := rfl

@[simp] theorem started_append (lines more : List Text) :
    started (lines ++ more) = started lines ++ started more := List.flatMap_append

theorem started_eq_cons {lines : List Text} (h : lines ≠ []) :
    started lines = '\n' :: joinLines lines := by
  induction lines with
  | nil => exact absurd rfl h
  | cons line lines ih =>
    rw [started_cons]
    by_cases hlines : lines = []
    · simp [hlines]
    · rw [ih hlines, joinLines_cons hlines]

/-- Each offset of `text` where `needle` occurs, overlapping ones included, counted from
`offset`. -/
def offsets (needle : Text) : Text → Nat → List Nat
  | [], _ => []
  | c :: rest, offset =>
    if needle.isPrefixOf (c :: rest) then offset :: offsets needle rest (offset + 1)
    else offsets needle rest (offset + 1)

/-- Each offset where the lines of `block` stand in the lines that follow. -/
def occurrences (block : List Text) : List Text → Nat → List Nat
  | [], _ => []
  | line :: lines, offset =>
    if block.isPrefixOf (line :: lines) then
      offset :: occurrences block lines (offset + (line.length + 1))
    else occurrences block lines (offset + (line.length + 1))

/-- A needle that starts with a line break occurs nowhere inside a line. -/
theorem offsets_append {line : Text} (hline : '\n' ∉ line) (needle rest : Text) (offset : Nat) :
    offsets ('\n' :: needle) (line ++ rest) offset =
      offsets ('\n' :: needle) rest (offset + line.length) := by
  induction line generalizing offset with
  | nil => rfl
  | cons c line ih =>
    obtain ⟨hc, hrest⟩ := not_or.mp (List.mem_cons.not.mp hline)
    rw [List.cons_append, offsets, if_neg (by simp [List.isPrefixOf, hc]), ih hrest,
      List.length_cons]
    congr 1
    omega

/-- Lines up to a line break are equal when their texts are. -/
theorem line_cancel {line line' rest rest' : Text} (h : '\n' ∉ line) (h' : '\n' ∉ line') :
    line ++ '\n' :: rest <+: line' ++ '\n' :: rest' ↔ line = line' ∧ rest <+: rest' := by
  induction line generalizing line' with
  | nil =>
    cases line' with
    | nil => simp
    | cons c line' =>
      obtain ⟨hc, -⟩ := not_or.mp (List.mem_cons.not.mp h')
      simp [hc]
  | cons c line ih =>
    cases line' with
    | nil =>
      obtain ⟨hc, -⟩ := not_or.mp (List.mem_cons.not.mp h)
      simp [Ne.symm hc]
    | cons c' line' =>
      have hline := @ih line' (fun hmem => h (by simp [hmem])) (fun hmem => h' (by simp [hmem]))
      simp [List.cons_prefix_cons, hline, and_assoc]

theorem exists_started_concat (lines : List Text) :
    ∃ tail, started lines ++ ['\n'] = '\n' :: tail := by
  cases lines with
  | nil => exact ⟨[], rfl⟩
  | cons line lines => exact ⟨_, rfl⟩

theorem started_isPrefix {block lines : List Text} (hblock : Unbroken block)
    (hlines : Unbroken lines) :
    started block ++ ['\n'] <+: started lines ++ ['\n'] ↔ block <+: lines := by
  induction block generalizing lines with
  | nil =>
    obtain ⟨tail, htail⟩ := exists_started_concat lines
    simp [htail]
  | cons first block ih =>
    obtain ⟨hfirst, hblock⟩ := List.forall_mem_cons.mp hblock
    cases lines with
    | nil =>
      have hlength : ¬ (started (first :: block) ++ ['\n']).length ≤ ['\n'].length := by
        simp [started_cons]
      simp only [started_nil, List.nil_append, List.prefix_nil, reduceCtorEq, iff_false]
      exact fun h => hlength h.length_le
    | cons line lines =>
      obtain ⟨hline, hlines⟩ := List.forall_mem_cons.mp hlines
      obtain ⟨tail, htail⟩ := exists_started_concat block
      obtain ⟨tail', htail'⟩ := exists_started_concat lines
      have hrest := ih hblock hlines
      rw [htail, htail', List.cons_prefix_cons] at hrest
      rw [started_cons, started_cons, List.cons_append, List.cons_append, List.append_assoc,
        List.append_assoc, htail, htail', List.cons_prefix_cons, line_cancel hfirst hline,
        List.cons_prefix_cons]
      simpa using fun _ => hrest

/-- A block stands in a text where its lines stand in the lines of the text. -/
theorem offsets_started {block lines : List Text} (hne : block ≠ []) (hblock : Unbroken block)
    (hlines : Unbroken lines) (offset : Nat) :
    offsets (started block ++ ['\n']) (started lines ++ ['\n']) offset =
      occurrences block lines offset := by
  obtain ⟨needle, hneedle⟩ := exists_started_concat block
  induction lines generalizing offset with
  | nil =>
    have habsent := (started_isPrefix hblock hlines).not.mpr (by simpa using hne)
    have hfirst : ¬ (started block ++ ['\n']).isPrefixOf ['\n'] = true := fun h =>
      habsent (List.isPrefixOf_iff_prefix.mp h)
    simp only [started_nil, List.nil_append, offsets, hfirst, occurrences]
    rfl
  | cons line lines ih =>
    have hfirst := started_isPrefix hblock hlines
    obtain ⟨hline, hrest⟩ := List.forall_mem_cons.mp hlines
    rw [← List.isPrefixOf_iff_prefix, ← List.isPrefixOf_iff_prefix] at hfirst
    have hnext : offsets (started block ++ ['\n']) (line ++ (started lines ++ ['\n']))
        (offset + 1) = occurrences block lines (offset + (line.length + 1)) := by
      rw [hneedle, offsets_append hline, ← hneedle, ih hrest]
      congr 1
      omega
    rw [started_cons, List.cons_append, List.append_assoc] at hfirst ⊢
    rw [offsets, occurrences, hnext]
    simp only [hfirst]

theorem occurrences_ne_nil {block : List Text} (hne : block ≠ []) (before after : List Text)
    (offset : Nat) : occurrences block (before ++ block ++ after) offset ≠ [] := by
  induction before generalizing offset with
  | nil =>
    obtain ⟨line, rest, rfl⟩ := List.exists_cons_of_ne_nil hne
    have hfirst : (line :: rest).isPrefixOf (line :: (rest ++ after)) = true :=
      List.isPrefixOf_iff_prefix.mpr ⟨after, rfl⟩
    simp only [List.nil_append, List.cons_append, occurrences, if_pos hfirst]
    simp
  | cons line before ih =>
    simp only [List.cons_append, occurrences]
    split
    · simp
    · exact ih _

/-- A block with one occurrence splits the lines in one way. -/
theorem split_of_occurrences {block lines : List Text} {offset found : Nat} (hne : block ≠ [])
    (h : occurrences block lines offset = [found]) :
    ∃ before after, lines = before ++ block ++ after ∧ found = offset + (started before).length ∧
      ∀ before' after', lines = before' ++ block ++ after' → before' = before := by
  induction lines generalizing offset with
  | nil => simp [occurrences] at h
  | cons line lines ih =>
    rw [occurrences] at h
    split at h
    · rename_i hfirst
      obtain ⟨rfl, hrest⟩ := List.cons.inj h
      obtain ⟨after, hafter⟩ := List.isPrefixOf_iff_prefix.mp hfirst
      refine ⟨[], after, hafter.symm, rfl, fun before' after' hsplit => ?_⟩
      cases before' with
      | nil => rfl
      | cons line' before' =>
        obtain ⟨-, rfl⟩ := List.cons.inj hsplit
        exact absurd hrest (occurrences_ne_nil hne before' after' _)
    · rename_i hfirst
      obtain ⟨before, after, rfl, rfl, hunique⟩ := ih h
      refine ⟨line :: before, after, rfl, ?_, fun before' after' hsplit => ?_⟩
      · simp only [started_cons, List.length_cons, List.length_append]
        omega
      · cases before' with
        | nil =>
          refine absurd (List.isPrefixOf_iff_prefix.mpr ⟨after', ?_⟩) hfirst
          simpa using hsplit.symm
        | cons line' before' =>
          obtain ⟨rfl, hrest⟩ := List.cons.inj hsplit
          rw [hunique before' after' hrest]

end Agentless
