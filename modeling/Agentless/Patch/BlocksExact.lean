import Agentless.Patch.Blocks

/-!
# Blocks that are read, and blocks that were rendered

1. Each block of a text gives an edit or a refusal with its own number.
2. Rendering edits as blocks and reading them back gives the edits.
-/

namespace Agentless.Patch.Blocks

open Text

section Numbers

variable {isWord : Char → Bool} {quoted : Text → Text}

/-- The numbers that the edits and the refusals carry. -/
def indices (parsed : ParseResult) : List Nat :=
  parsed.edits.map (·.index) ++ parsed.errors.map (·.index)

theorem editOf_index {index : Nat} {path : Option Text} {bodies : List Text} :
    (∀ edit, editOf index path bodies = .ok edit → edit.index = index) ∧
      ∀ error, editOf index path bodies = .error error → error.index = index := by
  unfold editOf
  constructor <;> intro block hblock <;> (repeat' split at hblock) <;> cases hblock <;> rfl

theorem readBlock_index {index : Nat} {segment : Text} {inherited : Option Text} :
    (∀ edit, (readBlock isWord quoted index segment inherited).2 = .ok edit → edit.index = index) ∧
      ∀ error, (readBlock isWord quoted index segment inherited).2 = .error error →
        error.index = index := by
  unfold readBlock
  dsimp only
  split
  · exact ⟨nofun, fun error herror => by cases herror; rfl⟩
  · dsimp only
    exact editOf_index
  · dsimp only
    exact editOf_index

/-- Every number before the next one is carried once. -/
def Reading.Numbered (reading : Reading) : Prop :=
  (indices reading.parsed).Perm (List.range reading.index)

theorem Reading.Numbered.add {reading : Reading} (h : reading.Numbered) (segment : Text) :
    (reading.add isWord quoted segment).Numbered := by
  obtain ⟨hedit, herror⟩ := @readBlock_index isWord quoted reading.index segment reading.current
  unfold Reading.add
  generalize readBlock isWord quoted reading.index segment reading.current = read at hedit herror ⊢
  obtain ⟨path, error | edit⟩ := read
  · simp only [Numbered, indices, List.map_append, List.map_cons, List.map_nil, List.range_succ,
      ← List.append_assoc, herror error rfl]
    exact h.append_right _
  · simp only [Numbered, indices, List.map_append, List.map_cons, List.map_nil, List.range_succ,
      hedit edit rfl]
    refine List.Perm.trans ?_ (h.append_right [reading.index])
    rw [List.append_assoc, indices, List.append_assoc]
    exact List.perm_append_comm.append_left _

theorem Reading.Numbered.foldl {reading : Reading} (h : reading.Numbered) (segments : List Text) :
    (segments.foldl (Reading.add isWord quoted) reading).Numbered := by
  induction segments generalizing reading with
  | nil => exact h
  | cons segment segments ih => exact ih (h.add segment)

theorem unterminated_index {index : Nat} {tail : Text} {current : Option Text} {error : BlockError}
    (h : unterminated isWord quoted index tail current = some error) : error.index = index := by
  unfold unterminated at h
  dsimp only at h
  split_ifs at h
  cases h
  rfl

theorem numbered_empty : ({} : Reading).Numbered := List.Perm.refl _

/-- The numbers of the edits and refusals of a text are the first ones, each once. -/
theorem indices_parseBlocks (isWord : Char → Bool) (quoted : Text → Text) (text : Text) :
    ∃ count, (indices (parseBlocks isWord quoted text)).Perm (List.range count) := by
  unfold parseBlocks
  dsimp only
  have hread : ((Find.splitAll replaceMarker text).dropLast.foldl (Reading.add isWord quoted)
      {}).Numbered := numbered_empty.foldl _
  generalize (Find.splitAll replaceMarker text).dropLast.foldl (Reading.add isWord quoted) {} = reading
    at hread ⊢
  split_ifs
  · exact ⟨1, List.Perm.refl _⟩
  · cases hlast : unterminated isWord quoted reading.index
      ((Find.splitAll replaceMarker text).getLastD []) reading.current with
    | none =>
      refine ⟨reading.index, ?_⟩
      simpa [indices, Reading.Numbered] using hread
    | some error =>
      refine ⟨reading.index + 1, ?_⟩
      simp only [indices, Option.toList_some, List.map_append, List.map_cons, List.map_nil,
        unterminated_index hlast, List.range_succ, ← List.append_assoc]
      exact hread.append_right _

end Numbers

/-! ## Rendered blocks -/

/-- The line above a block: its path, after `#` marks and a space if there are any. -/
def headerLine (hashes : Nat) (path : Text) : Text :=
  if hashes = 0 then path else List.replicate hashes '#' ++ ' ' :: path

/-- A block up to its closing marker. -/
def renderOpen (hashes : Nat) (edit : Edit) : Text :=
  joinLines [headerLine hashes edit.path, searchMarker, edit.search, divider, edit.replace, []]

/-- The edits as blocks, with `gap` empty lines after each. -/
def render (hashes gap : Nat) (edits : List Edit) : Text :=
  edits.flatMap fun edit =>
    renderOpen hashes edit ++ replaceMarker ++ List.replicate (gap + 1) '\n'

/-- One word that the reader of headers takes for a path. -/
structure HeaderWord (isWord : Char → Bool) (path : Text) : Prop where
  word : ∀ c ∈ path, isSpace c = false
  shape : path ≠ [] ∧ Blocks.shape isWord path = .path
  hash : path.head? ≠ some '#'
  fence : fence.isPrefixOf path = false

/-- A text whose lines hold neither marker and are no dividers. -/
structure MarkerFree (text : Text) : Prop where
  search : ¬ searchMarker <:+: text
  replace : ¬ replaceMarker <:+: text
  divider : ∀ line ∈ splitLines text, isDivider line = false

/-- An edit that a block can hold. Not both sides are an elision. -/
structure Renderable (isWord : Char → Bool) (edit : Edit) : Prop where
  path : HeaderWord isWord edit.path
  search : MarkerFree edit.search
  replace : MarkerFree edit.replace
  written : ¬ (edit.search = elision ∧ strip edit.replace = elision)

/-! ### The path of a rendered header -/

section Header

variable {isWord : Char → Bool} {quoted : Text → Text} {path : Text} {hashes : Nat}

theorem isLineBreak_of_not_space {c : Char} (h : isSpace c = false) : isLineBreak c = false := by
  by_contra hbreak
  simp only [isLineBreak, Bool.not_eq_false, Bool.or_eq_true, beq_iff_eq] at hbreak
  rcases hbreak with ((((((((rfl | rfl) | rfl) | rfl) | rfl) | rfl) | rfl) | rfl) | rfl) | rfl <;>
    exact absurd h (by decide)

theorem splitlines_go_line {header : Text} (h : ∀ c ∈ header, isLineBreak c = false) (line : Text) :
    splitlines.go false line (header ++ ['\n']) = [line ++ header] := by
  induction header generalizing line with
  | nil => simp [splitlines.go, isLineBreak]
  | cons c header ih =>
    obtain ⟨hc, hheader⟩ := List.forall_mem_cons.mp h
    rw [List.cons_append, splitlines.go, if_neg (by simp [hc]), ih hheader]
    · simp
    · rintro rest rfl
      exact absurd hc (by decide)

theorem splitlines_gap {header : Text} (h : ∀ c ∈ header, isLineBreak c = false) (gap : Nat) :
    splitlines (List.replicate gap '\n' ++ (header ++ ['\n'])) false =
      List.replicate gap [] ++ [header] := by
  unfold splitlines
  induction gap with
  | zero => exact splitlines_go_line h []
  | succ gap ih =>
    rw [List.replicate_succ, List.cons_append, splitlines.go, if_pos (by decide), ih]
    · rfl
    · simp

theorem strip_eq_self {text : Text} (hhead : ∀ c, text.head? = some c → isSpace c = false)
    (hlast : ∀ c, text.getLast? = some c → isSpace c = false) : strip text = text := by
  have hdrop : text.dropWhile isSpace = text := by
    cases text with
    | nil => rfl
    | cons c text => rw [List.dropWhile_cons, if_neg (by simp [hhead c rfl])]
  rw [strip, hdrop, trimEnd, List.rdropWhile_eq_self_iff]
  intro hne
  simp [hlast _ (List.getLast?_eq_some_getLast hne)]

theorem HeaderWord.getLast? (h : HeaderWord isWord path) (before : Text) :
    ∀ c, (before ++ path).getLast? = some c → isSpace c = false := by
  intro c hc
  rw [List.getLast?_append_of_ne_nil _ h.shape.1] at hc
  exact h.word c (List.mem_of_getLast? hc)

theorem HeaderWord.strip (h : HeaderWord isWord path) : strip path = path :=
  strip_eq_self (fun c hc => h.word c (List.mem_of_head? hc)) (by simpa using h.getLast? [])

theorem HeaderWord.strip_headerLine (h : HeaderWord isWord path) :
    Text.strip (headerLine hashes path) = headerLine hashes path := by
  unfold headerLine
  split_ifs with hzero
  · exact h.strip
  · obtain ⟨count, rfl⟩ := Nat.exists_eq_succ_of_ne_zero hzero
    refine strip_eq_self (fun c hc => ?_) ?_
    · obtain rfl : '#' = c := by simpa [List.replicate_succ] using hc
      decide
    · rw [List.append_cons]
      exact h.getLast? _

/-- The reader of headers takes a rendered one for its path. -/
theorem HeaderWord.filenameIn (h : HeaderWord isWord path) (gap : Nat) :
    filenameIn isWord quoted (List.replicate gap '\n' ++ (headerLine hashes path ++ ['\n'])) =
      .named path := by
  have hbreaks : ∀ c ∈ headerLine hashes path, isLineBreak c = false := by
    intro c hc
    unfold headerLine at hc
    split_ifs at hc
    · exact isLineBreak_of_not_space (h.word c hc)
    · simp only [List.mem_append, List.mem_replicate, List.mem_cons] at hc
      rcases hc with ⟨-, rfl⟩ | rfl | hc
      · decide
      · decide
      · exact isLineBreak_of_not_space (h.word c hc)
  have hne : headerLine hashes path ≠ [] := by
    unfold headerLine
    split_ifs
    · exact h.shape.1
    · simp
  have hfence : Blocks.fence.isPrefixOf (headerLine hashes path) = false := by
    unfold headerLine
    split_ifs with hzero
    · exact h.fence
    · obtain ⟨count, rfl⟩ := Nat.exists_eq_succ_of_ne_zero hzero
      rw [List.replicate_succ]
      rfl
  have hdrop : Text.strip ((headerLine hashes path).dropWhile (· = '#')) = path := by
    unfold headerLine
    split_ifs with hzero
    · have hdrop : path.dropWhile (· = '#') = path := by
        cases hpath : path with
        | nil => rfl
        | cons c rest =>
          rw [List.dropWhile_cons, if_neg]
          have := h.hash
          simpa [hpath] using this
      rw [hdrop, h.strip]
    · have hdrop : (List.replicate hashes '#' ++ ' ' :: path).dropWhile (· = '#') = ' ' :: path := by
        rw [List.dropWhile_append_of_pos (by simp)]
        rfl
      rw [hdrop, Text.strip, List.dropWhile_cons, if_pos (by decide)]
      exact h.strip
  rw [Blocks.filenameIn, splitlines_gap hbreaks, List.reverse_append, List.reverse_singleton,
    List.singleton_append, filenameFrom]
  simp [h.strip_headerLine, hne, hfence, hdrop, h.shape.1, h.shape.2]

end Header

/-! ### The body of a rendered block -/

section Body

variable {search replace : Text}

/-- The one place of a list where a test holds. -/
theorem filter_range_eq_singleton {α : Type} {p : α → Bool} {before after : List α} {item : α}
    (hitem : p item = true) (hbefore : ∀ x ∈ before, p x = false) (hafter : ∀ x ∈ after, p x = false) :
    ((List.range (before ++ item :: after).length).filter fun at_ =>
      (before ++ item :: after)[at_]?.any p) = [before.length] := by
  refine List.Pairwise.eq_of_mem_iff (List.pairwise_lt_range.filter _) (List.pairwise_singleton _ _) ?_
  intro at_
  rw [List.mem_filter, List.mem_range, List.mem_singleton]
  constructor
  · rintro ⟨-, hany⟩
    by_contra hne
    obtain ⟨found, hfound, hholds⟩ := (Option.any_eq_true _ _).mp hany
    obtain hlt | hgt := Nat.lt_or_gt_of_ne hne
    · rw [List.getElem?_append_left hlt] at hfound
      rw [hbefore found (List.mem_of_getElem? hfound)] at hholds
      cases hholds
    · rw [List.getElem?_append_right hgt.le, List.getElem?_cons,
        if_neg (Nat.sub_ne_zero_of_lt hgt)] at hfound
      rw [hafter found (List.mem_of_getElem? hfound)] at hholds
      cases hholds
  · rintro rfl
    simp [hitem]

theorem splitLines_body (search replace : Text) :
    splitLines (joinLines [[], search, divider, replace, []]) =
      [] :: (splitLines search ++ divider :: (splitLines replace ++ [[]])) := by
  have hsame : joinLines [[], search, divider, replace, []] =
      joinLines ([] :: (splitLines search ++ divider :: (splitLines replace ++ [[]]))) := by
    have hs := splitLines_ne_nil search
    have hr := splitLines_ne_nil replace
    have hbody : joinLines ([] :: (splitLines search ++ divider :: (splitLines replace ++ [[]]))) =
        '\n' :: (search ++ '\n' :: (divider ++ '\n' :: (replace ++ ['\n']))) := by
      rw [joinLines_cons (by simp), joinLines_append hs (by simp), joinLines_cons (by simp),
        joinLines_append hr (by simp), joinLines_splitLines, joinLines_splitLines,
        joinLines_singleton, List.nil_append]
    rw [hbody]
    simp only [joinLines_cons, ne_eq, reduceCtorEq, not_false_eq_true, joinLines_singleton,
      List.nil_append]
  rw [hsame]
  refine splitLines_joinLines (by simp) ?_
  intro line hline
  simp only [List.mem_cons, List.mem_append, List.not_mem_nil, or_false] at hline
  rcases hline with rfl | hline | rfl | hline | rfl
  · simp
  · exact unbroken_splitLines search line hline
  · decide
  · exact unbroken_splitLines replace line hline
  · simp

theorem splitBody_rendered (hsearch : MarkerFree search) (hreplace : MarkerFree replace)
    (hwritten : ¬ (search = elision ∧ strip replace = elision)) :
    splitBody (joinLines [[], search, divider, replace, []]) = .ok (search, replace) := by
  have hdivider : isDivider divider = true := by decide
  have hfilter : (splitLines search ++ divider :: (splitLines replace ++ [[]])).filter isDivider =
      [divider] := by
    rw [List.filter_append, List.filter_cons, if_pos hdivider, List.filter_append,
      List.filter_eq_nil_iff.mpr (by simpa using hsearch.divider),
      List.filter_eq_nil_iff.mpr (by simpa using hreplace.divider)]
    decide
  have hcrlf : crlfReason ([] :: (splitLines search ++ divider :: (splitLines replace ++ [[]]))) =
      none := by
    have hnil : ¬ isDivider [] = true := by decide
    rw [crlfReason, List.filter_cons, if_neg hnil, hfilter, List.take_succ_cons, List.take_zero]
    decide
  have hlines : bodyLines ([] :: (splitLines search ++ divider :: (splitLines replace ++ [[]]))) =
      splitLines search ++ divider :: splitLines replace := by
    rw [bodyLines, List.tail_cons, ← List.cons_append, ← List.append_assoc,
      if_pos List.getLast?_concat, List.dropLast_concat]
  have hfirst : strip ([] : Text) = [] := by decide
  have hdrop : (splitLines search ++ divider :: splitLines replace).drop
      ((splitLines search).length + 1) = splitLines replace := by
    rw [← List.drop_drop, List.drop_left, List.drop_one, List.tail_cons]
  unfold splitBody
  rw [splitLines_body]
  dsimp only
  rw [hcrlf]
  dsimp only
  refine (if_neg fun hne => hne hfirst).trans ?_
  rw [hlines, filter_range_eq_singleton hdivider hsearch.divider hreplace.divider]
  dsimp only
  rw [List.take_left, hdrop, joinLines_splitLines, joinLines_splitLines, if_neg hwritten]

end Body

/-! ### Where the markers stand -/

section Markers

variable {isWord : Char → Bool} {quoted : Text → Text} {marker : Text} {hashes : Nat} {edit : Edit}

theorem not_infix_joinLines (hbreak : '\n' ∉ marker) (hne : marker ≠ []) {pieces : List Text}
    (h : ∀ piece ∈ pieces, ¬ marker <:+: piece) : ¬ marker <:+: joinLines pieces := by
  induction pieces with
  | nil =>
    intro hinside
    exact hne (List.eq_nil_of_infix_nil hinside)
  | cons piece pieces ih =>
    obtain ⟨hpiece, hpieces⟩ := List.forall_mem_cons.mp h
    by_cases hlast : pieces = []
    · rwa [hlast, joinLines_singleton]
    · rw [joinLines_cons hlast]
      intro hinside
      exact (Find.infix_append_cons hbreak hinside).elim hpiece (ih hpieces)

theorem not_infix_of_notMem {c : Char} {text : Text} (hc : c ∈ marker) (htext : c ∉ text) :
    ¬ marker <:+: text := fun hinside => htext (hinside.subset hc)

theorem HeaderWord.marker_absent {path : Text} (h : HeaderWord isWord path) {first : Char} {rest : Text}
    (hfirst : first ≠ ' ' ∧ first ≠ '#') (hrest : ' ' ∈ rest) (hhash : '#' ∉ rest) :
    ¬ first :: rest <:+: headerLine hashes path := by
  have hpath : ¬ first :: rest <:+: path := by
    refine not_infix_of_notMem (List.mem_cons_of_mem _ hrest) fun hspace => ?_
    exact absurd (h.word ' ' hspace) (by decide)
  unfold headerLine
  split_ifs with hzero
  · exact hpath
  · obtain ⟨count, rfl⟩ := Nat.exists_eq_succ_of_ne_zero hzero
    rw [List.replicate_succ', List.append_assoc, List.singleton_append]
    intro hinside
    have hmark : '#' ∉ first :: rest := by simp [hhash, Ne.symm hfirst.2]
    obtain hinside | hinside := Find.infix_append_cons hmark hinside
    · refine not_infix_of_notMem (List.mem_cons_self (a := first) (l := rest)) (fun hmem => ?_) hinside
      exact hfirst.2 (List.eq_of_mem_replicate hmem)
    · obtain hpre | hinside := List.infix_cons_iff.mp hinside
      · exact hfirst.1 (List.cons_prefix_cons.mp hpre).1
      · exact hpath hinside

/-- A rendered block after `gap` line breaks. -/
def segment (gap hashes : Nat) (edit : Edit) : Text :=
  List.replicate gap '\n' ++ renderOpen hashes edit

theorem replicate_append_joinLines (gap : Nat) {pieces : List Text} (h : pieces ≠ []) :
    List.replicate gap '\n' ++ joinLines pieces = joinLines (List.replicate gap [] ++ pieces) := by
  induction gap with
  | zero => rfl
  | succ gap ih =>
    rw [List.replicate_succ, List.replicate_succ, List.cons_append, List.cons_append, ih,
      joinLines_cons (by simp [h]), List.nil_append]

theorem searchMarker_absent (h : Renderable isWord edit) (hashes gap : Nat) :
    (∀ piece ∈ List.replicate gap [] ++ [headerLine hashes edit.path, []],
      ¬ searchMarker <:+: piece) ∧
      ∀ piece ∈ [[], edit.search, divider, edit.replace, []], ¬ searchMarker <:+: piece := by
  have hnil : ¬ searchMarker <:+: [] := by decide
  constructor
  · simp only [List.mem_append, List.mem_replicate, List.mem_cons, List.not_mem_nil, or_false]
    rintro piece (⟨-, rfl⟩ | rfl | rfl)
    · exact hnil
    · exact h.path.marker_absent (by decide) (by decide) (by decide)
    · exact hnil
  · simp only [List.mem_cons, List.not_mem_nil, or_false]
    rintro piece (rfl | rfl | rfl | rfl | rfl)
    · exact hnil
    · exact h.search.search
    · decide
    · exact h.replace.search
    · exact hnil

theorem replaceMarker_absent (h : Renderable isWord edit) (hashes gap : Nat) :
    ∀ piece ∈ List.replicate gap [] ++
      [headerLine hashes edit.path, searchMarker, edit.search, divider, edit.replace, []],
      ¬ replaceMarker <:+: piece := by
  have hnil : ¬ replaceMarker <:+: [] := by decide
  simp only [List.mem_append, List.mem_replicate, List.mem_cons, List.not_mem_nil, or_false]
  rintro piece (⟨-, rfl⟩ | rfl | rfl | rfl | rfl | rfl | rfl)
  · exact hnil
  · exact h.path.marker_absent (by decide) (by decide) (by decide)
  · decide
  · exact h.search.replace
  · decide
  · exact h.replace.replace
  · exact hnil

/-- Joined pieces that end with an empty one end with a line break. -/
theorem getLast?_joinLines_concat_nil {pieces : List Text} (h : pieces ≠ []) :
    (joinLines (pieces ++ [[]])).getLast? = some '\n' := by
  rw [joinLines_append h (by simp), joinLines_singleton, List.getLast?_append, List.getLast?_singleton,
    Option.some_or]

theorem splitAll_segment (h : Renderable isWord edit) (hashes gap : Nat) :
    Find.splitAll searchMarker (segment gap hashes edit) =
      [List.replicate gap '\n' ++ (headerLine hashes edit.path ++ ['\n']),
        joinLines [[], edit.search, divider, edit.replace, []]] := by
  obtain ⟨hheader, hbody⟩ := searchMarker_absent h hashes gap
  have hbefore : List.replicate gap '\n' ++ (headerLine hashes edit.path ++ ['\n']) =
      joinLines (List.replicate gap [] ++ [headerLine hashes edit.path, []]) := by
    rw [← replicate_append_joinLines gap (by simp), joinLines_cons (by simp), joinLines_singleton]
  have hsegment : segment gap hashes edit =
      joinLines (List.replicate gap [] ++ [headerLine hashes edit.path, []]) ++ searchMarker ++
        joinLines [[], edit.search, divider, edit.replace, []] := by
    rw [← hbefore, segment, renderOpen]
    simp [joinLines_cons]
  rw [hbefore, hsegment, Find.splitAll_of_free (by decide), Find.splitAll_eq_singleton (by decide)]
  · exact not_infix_joinLines (by decide) (by decide) hbody
  · exact not_infix_joinLines (by decide) (by decide) hheader
  · intro c hc
    rw [List.append_cons, getLast?_joinLines_concat_nil (by simp)] at hc
    obtain rfl := Option.some.inj hc
    decide

theorem readBlock_segment (h : Renderable isWord edit) (hashes gap index : Nat)
    (inherited : Option Text) :
    readBlock isWord quoted index (segment gap hashes edit) inherited =
      (some edit.path, .ok { edit with index := index }) := by
  unfold readBlock
  rw [splitAll_segment h]
  dsimp only [List.headD_cons, List.tail_cons]
  rw [h.path.filenameIn gap]
  dsimp only
  rw [editOf, splitBody_rendered h.search h.replace h.written]

/-- The pieces that the closing markers leave of rendered edits. -/
def segments (gap hashes : Nat) : Nat → List Edit → List Text
  | _, [] => []
  | before, edit :: edits => segment before hashes edit :: segments gap hashes (gap + 1) edits

theorem splitAll_render {edits : List Edit} (h : ∀ edit ∈ edits, Renderable isWord edit)
    (hashes gap before : Nat) :
    ∃ after, Find.splitAll replaceMarker (List.replicate before '\n' ++ render hashes gap edits) =
      segments gap hashes before edits ++ [List.replicate after '\n'] := by
  induction edits generalizing before with
  | nil =>
    refine ⟨before, ?_⟩
    rw [render, List.flatMap_nil, List.append_nil, Find.splitAll_eq_singleton (by decide)]
    · rfl
    · refine not_infix_of_notMem (c := '>') (by decide) fun hmem => ?_
      exact absurd (List.eq_of_mem_replicate hmem) (by decide)
  | cons edit edits ih =>
    obtain ⟨hedit, hedits⟩ := List.forall_mem_cons.mp h
    obtain ⟨after, hafter⟩ := ih hedits (gap + 1)
    refine ⟨after, ?_⟩
    have hopen : segment before hashes edit = joinLines (List.replicate before [] ++
        [headerLine hashes edit.path, searchMarker, edit.search, divider, edit.replace, []]) :=
      replicate_append_joinLines before (by simp)
    have hrender : List.replicate before '\n' ++ render hashes gap (edit :: edits) =
        segment before hashes edit ++ replaceMarker ++
          (List.replicate (gap + 1) '\n' ++ render hashes gap edits) := by
      simp [render, segment]
    rw [hrender, Find.splitAll_of_free (by decide), hafter, segments, List.cons_append]
    · rw [hopen]
      exact not_infix_joinLines (by decide) (by decide) (replaceMarker_absent hedit hashes before)
    · intro c hc
      have hend : segment before hashes edit = joinLines ((List.replicate before [] ++
          [headerLine hashes edit.path, searchMarker, edit.search, divider, edit.replace]) ++ [[]]) := by
        rw [hopen, List.append_assoc]
        rfl
      rw [hend, getLast?_joinLines_concat_nil (by simp)] at hc
      obtain rfl := Option.some.inj hc
      decide

/-- The edits with their places as numbers. -/
def numbered (start : Nat) (edits : List Edit) : List Edit :=
  (edits.zipIdx start).map fun (edit, index) => { edit with index := index }

theorem foldl_segments {edits : List Edit} (h : ∀ edit ∈ edits, Renderable isWord edit)
    (hashes gap before : Nat) (reading : Reading) :
    ((segments gap hashes before edits).foldl (Reading.add isWord quoted) reading).parsed =
      { reading.parsed with edits := reading.parsed.edits ++ numbered reading.index edits } := by
  induction edits generalizing before reading with
  | nil => simp [segments, numbered]
  | cons edit edits ih =>
    obtain ⟨hedit, hedits⟩ := List.forall_mem_cons.mp h
    rw [segments, List.foldl_cons, ih hedits, Reading.add, readBlock_segment hedit]
    simp [numbered, List.zipIdx_cons]

theorem parseBlocks_render {edits : List Edit} (h : ∀ edit ∈ edits, Renderable isWord edit)
    (hne : edits ≠ []) (hashes gap : Nat) :
    parseBlocks isWord quoted (render hashes gap edits) = ⟨numbered 0 edits, []⟩ := by
  obtain ⟨after, hsplit⟩ := splitAll_render h hashes gap 0
  rw [List.replicate_zero, List.nil_append] at hsplit
  have hparsed := @foldl_segments isWord quoted edits h hashes gap 0 {}
  have htail (index : Nat) (current : Option Text) :
      unterminated isWord quoted index (List.replicate after '\n') current = none := by
    unfold unterminated
    rw [Find.splitAll_eq_singleton (by decide)]
    · simp
    · refine not_infix_of_notMem (c := '<') (by decide) fun hmem => ?_
      exact absurd (List.eq_of_mem_replicate hmem) (by decide)
  have hnumbered : numbered 0 edits ≠ [] := by
    obtain ⟨edit, edits, rfl⟩ := List.exists_cons_of_ne_nil hne
    simp [numbered, List.zipIdx_cons]
  unfold parseBlocks
  dsimp only
  rw [hsplit, List.dropLast_concat, List.getLastD_concat, hparsed, htail]
  simp [hnumbered]

end Markers

/-! ## Accounting and undoing -/

/-- The edits and refusals of every text carry the first numbers, each once; and every list of edits
that blocks can hold is read back from its rendering, with no refusal. -/
theorem parseBlocks_accounts (isWord : Char → Bool) (quoted : Text → Text) :
    (∀ text, (indices (parseBlocks isWord quoted text)).Perm
      (List.range ((parseBlocks isWord quoted text).edits.length +
        (parseBlocks isWord quoted text).errors.length))) ∧
    ∀ (hashes gap : Nat) (edits : List Edit), edits ≠ [] →
      (∀ edit ∈ edits, Renderable isWord edit) →
      parseBlocks isWord quoted (render hashes gap edits) = ⟨numbered 0 edits, []⟩ := by
  refine ⟨fun text => ?_, fun hashes gap edits hne h => parseBlocks_render h hne hashes gap⟩
  obtain ⟨count, hperm⟩ := indices_parseBlocks isWord quoted text
  have hcount := hperm.length_eq
  rw [List.length_range, indices, List.length_append, List.length_map, List.length_map] at hcount
  rwa [hcount]

/-- The word class on ASCII. -/
def asciiWord (c : Char) : Bool := c.isAlphanum || c == '_'

def asciiQuoted (text : Text) : Text := '\'' :: text ++ ['\'']

theorem word_of_all {path : Text} (h : path.all (! isSpace ·) = true) :
    ∀ c ∈ path, isSpace c = false := by
  simpa using h

/-- No line of the text is a marker or a divider. -/
def NoMarkerLine (text : Text) : Prop :=
  ∀ line ∈ splitLines text, line ≠ searchMarker ∧ line ≠ replaceMarker ∧ isDivider line = false

instance (text : Text) : Decidable (NoMarkerLine text) :=
  inferInstanceAs (Decidable (∀ line ∈ splitLines text, _ ∧ _ ∧ _))

/-- No edit renders to an empty text, which is refused; a block of two elisions is refused; and a
marker inside a line opens a block. -/
theorem parseBlocks_refuses_rendered :
    (parseBlocks asciiWord asciiQuoted (render 0 0 [])).errors ≠ [] ∧
    (HeaderWord asciiWord "a.py".toList ∧ NoMarkerLine "...".toList ∧
      (parseBlocks asciiWord asciiQuoted
        (render 0 0 [⟨0, "a.py".toList, "...".toList, "...".toList⟩])).errors ≠ []) ∧
    (NoMarkerLine "x <<<<<<< SEARCH".toList ∧ NoMarkerLine "y".toList ∧
      (parseBlocks asciiWord asciiQuoted
        (render 0 0 [⟨0, "a.py".toList, "x <<<<<<< SEARCH".toList, "y".toList⟩])).errors ≠ []) := by
  refine ⟨by decide, ⟨⟨word_of_all (by decide), by decide, by decide, by decide⟩,
    by decide, by decide⟩, by decide, by decide, by decide⟩

/-- Two edits, one of which deletes its lines. -/
def pair : List Edit :=
  [⟨0, "app.py".toList, "x = 1".toList, "x = 2".toList⟩, ⟨1, "lib/a.py".toList, "y\n\nz".toList, []⟩]

theorem parseBlocks_accounts_pair :
    (∀ edit ∈ pair, Renderable asciiWord edit) ∧
      parseBlocks asciiWord asciiQuoted (render 3 1 pair) = ⟨pair, []⟩ := by
  have h : ∀ edit ∈ pair, Renderable asciiWord edit := by
    intro edit hedit
    simp only [pair, List.mem_cons, List.not_mem_nil, or_false] at hedit
    rcases hedit with rfl | rfl
    all_goals exact ⟨⟨word_of_all (by decide), by decide, by decide, by decide⟩,
      ⟨by decide, by decide, by decide⟩,
      ⟨by decide, by decide, by decide⟩, by decide⟩
  exact ⟨h, (parseBlocks_accounts asciiWord asciiQuoted).2 3 1 pair (by decide) h⟩

end Agentless.Patch.Blocks
