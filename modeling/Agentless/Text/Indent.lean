import Agentless.Library.Lines

/-!
# The common indentation of the lines of a text

Lines of only spaces and tabs are emptied, and the margin that the other lines share is removed. Two
texts come out alike just when they are one text, indented by two margins.
-/

namespace Agentless.Text

def isMargin (c : Char) : Bool := c == ' ' || c == '\t'

def blanked (line : Text) : Text := if line.all isMargin then [] else line

/-- The spaces and tabs before the text of a line. -/
def indent (line : Text) : Text := line.takeWhile isMargin

def commonPrefix (left right : Text) : Text :=
  left.take ((left.zip right).takeWhile fun pair => pair.1 == pair.2).length

/-- The margin that the lines share, but for the empty ones. -/
def sharedMargin (lines : List Text) : Text :=
  match (lines.filter (!·.isEmpty)).map indent with
  | [] => []
  | first :: rest => rest.foldl commonPrefix first

def withoutMargin (lines : List Text) : List Text :=
  lines.map fun line => (line.dropPrefix? (sharedMargin lines)).getD line

def dedent (text : Text) : Text := joinLines (withoutMargin ((splitLines text).map blanked))

section Prefixes

@[simp] theorem commonPrefix_nil_left (right : Text) : commonPrefix [] right = [] := rfl

@[simp] theorem commonPrefix_nil_right (left : Text) : commonPrefix left [] = [] := by
  simp [commonPrefix]

theorem commonPrefix_cons (a b : Char) (left right : Text) :
    commonPrefix (a :: left) (b :: right) = if a = b then a :: commonPrefix left right else [] := by
  by_cases h : a = b <;> simp [commonPrefix, h]

theorem commonPrefix_shares (left right : Text) :
    commonPrefix left right <+: left ∧ commonPrefix left right <+: right := by
  induction left generalizing right with
  | nil => simp
  | cons a left ih =>
    cases right with
    | nil => simp
    | cons b right =>
      rw [commonPrefix_cons]
      split_ifs with h
      · subst h
        simpa using ih right
      · simp

theorem commonPrefix_append (front left right : Text) :
    commonPrefix (front ++ left) (front ++ right) = front ++ commonPrefix left right := by
  induction front with
  | nil => rfl
  | cons c front ih =>
    rw [List.cons_append, List.cons_append, commonPrefix_cons, if_pos rfl, ih, List.cons_append]

theorem foldl_commonPrefix_shares (rest : List Text) (first : Text) :
    rest.foldl commonPrefix first <+: first ∧
      ∀ line ∈ rest, rest.foldl commonPrefix first <+: line := by
  induction rest generalizing first with
  | nil => simp
  | cons next rest ih =>
    obtain ⟨hfirst, hrest⟩ := ih (commonPrefix first next)
    obtain ⟨hleft, hright⟩ := commonPrefix_shares first next
    refine ⟨hfirst.trans hleft, fun line hline => ?_⟩
    rcases List.mem_cons.mp hline with rfl | hline
    · exact hfirst.trans hright
    · exact hrest line hline

theorem foldl_commonPrefix_append (front : Text) (rest : List Text) (first : Text) :
    (rest.map (front ++ ·)).foldl commonPrefix (front ++ first) =
      front ++ rest.foldl commonPrefix first := by
  induction rest generalizing first with
  | nil => rfl
  | cons next rest ih =>
    rw [List.map_cons, List.foldl_cons, commonPrefix_append, ih, List.foldl_cons]

end Prefixes

/-- Puts a margin before a line that is not empty. -/
def shift (margin line : Text) : Text := if line.isEmpty then [] else margin ++ line

theorem indent_append {margin : Text} (h : ∀ c ∈ margin, isMargin c = true) (line : Text) :
    indent (margin ++ line) = margin ++ indent line :=
  List.takeWhile_append_of_pos h

theorem sharedMargin_leads {lines : List Text} {line : Text} (h : line ∈ lines) (hne : line ≠ []) :
    sharedMargin lines <+: indent line := by
  have hmem : indent line ∈ (lines.filter (!·.isEmpty)).map indent :=
    List.mem_map_of_mem (List.mem_filter.mpr ⟨h, by simpa using hne⟩)
  unfold sharedMargin
  cases hlines : (lines.filter (!·.isEmpty)).map indent with
  | nil => simp [hlines] at hmem
  | cons first rest =>
    obtain ⟨hfirst, hrest⟩ := foldl_commonPrefix_shares rest first
    rw [hlines] at hmem
    rcases List.mem_cons.mp hmem with heq | hmem
    · rwa [heq]
    · exact hrest _ hmem

theorem isMargin_of_mem_sharedMargin {lines : List Text} {c : Char} (h : c ∈ sharedMargin lines) :
    isMargin c = true := by
  by_cases hall : ∀ line ∈ lines, line = []
  · have hnone : lines.filter (!·.isEmpty) = [] :=
      List.filter_eq_nil_iff.mpr fun line hline => by simp [hall line hline]
    simp [sharedMargin, hnone] at h
  · push Not at hall
    obtain ⟨line, hline, hne⟩ := hall
    exact List.mem_takeWhile_imp ((sharedMargin_leads hline hne).subset h)

theorem withoutMargin_eq (lines : List Text) :
    withoutMargin lines = lines.map (·.drop (sharedMargin lines).length) := by
  refine List.map_congr_left fun line hline => ?_
  by_cases hne : line = []
  · subst hne
    cases hmargin : sharedMargin lines with
    | nil => rfl
    | cons c margin => rfl
  · obtain ⟨rest, hrest⟩ := (sharedMargin_leads hline hne).trans (List.takeWhile_prefix isMargin)
    have hdrop : line.dropPrefix? (sharedMargin lines) = some rest :=
      List.dropPrefix?_eq_some_iff.mpr ⟨_, hrest.symm, beq_self_eq_true _⟩
    rw [hdrop, Option.getD_some, ← hrest, List.drop_left]

theorem filter_shift (margin : Text) (lines : List Text) :
    (lines.map (shift margin)).filter (!·.isEmpty) =
      (lines.filter (!·.isEmpty)).map (margin ++ ·) := by
  induction lines with
  | nil => rfl
  | cons line lines ih =>
    cases line with
    | nil => simpa [shift] using ih
    | cons c line => simpa [shift] using ih

theorem sharedMargin_shift {margin : Text} (h : ∀ c ∈ margin, isMargin c = true)
    {lines : List Text} (hne : ∃ line ∈ lines, line ≠ []) :
    sharedMargin (lines.map (shift margin)) = margin ++ sharedMargin lines := by
  obtain ⟨line, hline, hne⟩ := hne
  have hmem : line ∈ lines.filter (!·.isEmpty) := List.mem_filter.mpr ⟨hline, by simpa using hne⟩
  have hindent : indent ∘ (margin ++ ·) = (margin ++ ·) ∘ indent :=
    funext fun line => indent_append h line
  unfold sharedMargin
  rw [filter_shift, List.map_map, hindent, ← List.map_map]
  cases hlines : (lines.filter (!·.isEmpty)).map indent with
  | nil =>
    rw [List.map_eq_nil_iff] at hlines
    rw [hlines] at hmem
    cases hmem
  | cons first rest => exact foldl_commonPrefix_append margin rest first

/-- A margin before the lines changes nothing of what is left of them. -/
theorem withoutMargin_shift {margin : Text} (h : ∀ c ∈ margin, isMargin c = true)
    (lines : List Text) : withoutMargin (lines.map (shift margin)) = withoutMargin lines := by
  by_cases hne : ∃ line ∈ lines, line ≠ []
  · rw [withoutMargin_eq, withoutMargin_eq, sharedMargin_shift h hne, List.map_map]
    refine List.map_congr_left fun line _ => ?_
    cases line with
    | nil => simp [shift]
    | cons c line => simp [shift, List.drop_append]
  · push Not at hne
    have hshift : lines.map (shift margin) = lines := by
      conv_rhs => rw [← List.map_id lines]
      exact List.map_congr_left fun line hline => by rw [hne line hline]; rfl
    rw [hshift]

/-- A text is another one with a margin before each line; a line of only spaces and tabs may have
any. -/
def Indented (margin text other : Text) : Prop :=
  (∀ c ∈ margin, isMargin c = true) ∧
    (splitLines other).map blanked = ((splitLines text).map blanked).map (shift margin)

theorem dedent_of_indented {margin text other : Text} (h : Indented margin text other) :
    dedent other = dedent text := by
  unfold dedent
  rw [h.2, withoutMargin_shift h.1]

theorem blanked_eq_nil_or (line : Text) :
    blanked line = [] ∨ blanked line = line ∧ ∃ c ∈ line, isMargin c = false := by
  unfold blanked
  split_ifs with h
  · exact .inl rfl
  · exact .inr ⟨rfl, by simpa using h⟩

theorem blanked_of_mem {line : Text} {c : Char} (h : c ∈ line) (hmargin : isMargin c = false) :
    blanked line = line :=
  if_neg fun hall => by simp [List.all_eq_true.mp hall c h] at hmargin

theorem splitLines_dedent (text : Text) :
    splitLines (dedent text) = withoutMargin ((splitLines text).map blanked) := by
  refine splitLines_joinLines ?_ ?_
  · simp [withoutMargin, splitLines_ne_nil]
  · rw [withoutMargin_eq]
    intro line hline hbreak
    simp only [List.mem_map, exists_exists_and_eq_and] at hline
    obtain ⟨whole, hwhole, rfl⟩ := hline
    have hmem := List.mem_of_mem_drop hbreak
    rcases blanked_eq_nil_or whole with heq | ⟨heq, -⟩
    · rw [heq] at hmem
      cases hmem
    · rw [heq] at hmem
      exact unbroken_splitLines text whole hwhole hmem

/-- A text is what is left of it behind the margin that was removed. -/
theorem indented_dedent (text : Text) :
    Indented (sharedMargin ((splitLines text).map blanked)) (dedent text) text := by
  refine ⟨fun c => isMargin_of_mem_sharedMargin, ?_⟩
  rw [splitLines_dedent, withoutMargin_eq, List.map_map, List.map_map, List.map_map]
  refine List.map_congr_left fun line hline => ?_
  simp only [Function.comp_apply]
  rcases blanked_eq_nil_or line with heq | ⟨heq, c, hc, hmargin⟩
  · rw [heq]
    simp [blanked, shift]
  · have hne : blanked line ≠ [] := by
      rw [heq]
      exact List.ne_nil_of_mem hc
    obtain ⟨rest, hrest⟩ := (sharedMargin_leads (List.mem_map_of_mem hline) hne).trans
      (List.takeWhile_prefix isMargin)
    have hc' : c ∈ rest := by
      rw [← heq, ← hrest, List.mem_append] at hc
      refine hc.resolve_left fun hshared => ?_
      rw [isMargin_of_mem_sharedMargin hshared] at hmargin
      cases hmargin
    rw [← hrest, List.drop_left, blanked_of_mem hc' hmargin, shift, if_neg]
    simpa using List.ne_nil_of_mem hc'

/-- Two texts are left alike just when they are one text behind two margins. -/
theorem dedent_eq_iff (text other : Text) :
    dedent text = dedent other ↔
      ∃ base margin margin', Indented margin base text ∧ Indented margin' base other := by
  constructor
  · intro heq
    exact ⟨dedent text, _, _, indented_dedent text, by rw [heq]; exact indented_dedent other⟩
  · rintro ⟨base, margin, margin', htext, hother⟩
    rw [dedent_of_indented htext, dedent_of_indented hother]

end Agentless.Text
