import Agentless.Checks.Contract
import Agentless.Library.Occurrence
import Agentless.Library.Sequence

/-!
# Boundary globs

What a glob means: `*` is any run of characters of one segment, and `**` a run of whole segments.
The matcher of a segment takes the leftmost place of each piece between two stars, and the matcher
of a glob keeps a table over the segments. Both find what the meaning says.
-/

namespace Agentless.Checks

/-! ## One segment -/

/-- A star is any run of characters, and any other character is itself. -/
def segmentReference : Text → Text → Prop
  | [], text => text = []
  | c :: pattern, text =>
    if c = '*' then ∃ run rest, text = run ++ rest ∧ segmentReference pattern rest
    else ∃ rest, text = c :: rest ∧ segmentReference pattern rest

/-- The pieces stand in the text one after the other. -/
def Spread : List Text → Text → Prop
  | [], _ => True
  | piece :: pieces, text => ∃ before after, text = before ++ piece ++ after ∧ Spread pieces after

theorem Spread.append {pieces : List Text} {text : Text} (h : Spread pieces text) (before : Text) :
    Spread pieces (before ++ text) := by
  cases pieces with
  | nil => trivial
  | cons piece pieces =>
    obtain ⟨start, after, rfl, hafter⟩ := h
    exact ⟨before ++ start, after, by simp, hafter⟩

/-- The leftmost place leaves the most text for the pieces that follow. -/
theorem middlesMatch_iff {pieces : List Text} {text : Text} :
    middlesMatch pieces text = true ↔ Spread pieces text := by
  induction pieces generalizing text with
  | nil => simp [middlesMatch, Spread]
  | cons piece pieces ih =>
    unfold middlesMatch
    cases hfound : text.tails.findIdx? (piece.isPrefixOf ·) with
    | none =>
      have hnone := findIdx?_tails_eq_none_iff.mp hfound
      refine iff_of_false (by simp) ?_
      rintro ⟨before, after, rfl, -⟩
      exact hnone ⟨before, after, rfl⟩
    | some i =>
      obtain ⟨hi, ⟨rest, hrest⟩, hfirst⟩ := findIdx?_tails_eq_some_iff.mp hfound
      have hdrop : text.drop (i + piece.length) = rest := by
        rw [← List.drop_drop, ← hrest, List.drop_left]
      simp only [hdrop, ih]
      constructor
      · intro hspread
        exact ⟨text.take i, rest, by rw [List.append_assoc, hrest, List.take_append_drop], hspread⟩
      · rintro ⟨before, after, rfl, hspread⟩
        have hle : i ≤ before.length := by
          by_contra hlt
          exact hfirst before.length (by omega) (by simp)
        have hafter : rest.drop (before.length - i) = after := by
          rw [← hdrop, List.drop_drop, show i + piece.length + (before.length - i) =
            (before ++ piece).length by simp; omega, List.drop_left]
        rw [← List.take_append_drop (before.length - i) rest, hafter]
        exact hspread.append _

/-- A piece without stars is only itself. -/
theorem segmentReference_append {piece pattern text : Text} (h : '*' ∉ piece) :
    segmentReference (piece ++ pattern) text ↔
      ∃ rest, text = piece ++ rest ∧ segmentReference pattern rest := by
  induction piece generalizing text with
  | nil => simp
  | cons c piece ih =>
    obtain ⟨hc, hpiece⟩ := List.ne_and_not_mem_of_not_mem_cons h
    rw [List.cons_append, segmentReference, if_neg hc.symm]
    constructor
    · rintro ⟨rest, rfl, hrest⟩
      obtain ⟨more, rfl, hmore⟩ := (ih hpiece).mp hrest
      exact ⟨more, rfl, hmore⟩
    · rintro ⟨rest, rfl, hrest⟩
      exact ⟨piece ++ rest, rfl, (ih hpiece).mpr ⟨rest, rfl, hrest⟩⟩

/-- A star, then the pieces with a star behind each, then the tail. -/
def starred (middle : List Text) (tail : Text) : Text :=
  '*' :: middle.foldr (fun piece pattern => piece ++ '*' :: pattern) tail

theorem segmentReference_starred {middle : List Text} {tail text : Text}
    (hmiddle : ∀ piece ∈ middle, '*' ∉ piece) (htail : '*' ∉ tail) :
    segmentReference (starred middle tail) text ↔
      ∃ between, text = between ++ tail ∧ Spread middle between := by
  induction middle generalizing text with
  | nil =>
    have hwhole (rest : Text) : segmentReference tail rest ↔ rest = tail := by
      simpa [segmentReference] using @segmentReference_append tail [] rest htail
    simp only [starred, List.foldr_nil, segmentReference, if_true, hwhole, Spread, and_true]
    exact ⟨fun ⟨run, rest, htext, hrest⟩ => ⟨run, hrest ▸ htext⟩,
      fun ⟨run, htext⟩ => ⟨run, tail, htext, rfl⟩⟩
  | cons piece middle ih =>
    obtain ⟨hpiece, hmiddle⟩ := List.forall_mem_cons.mp hmiddle
    have hstep : starred (piece :: middle) tail = '*' :: (piece ++ starred middle tail) := rfl
    rw [hstep, segmentReference, if_pos rfl]
    simp only [segmentReference_append hpiece, ih hmiddle]
    constructor
    · rintro ⟨before, _, rfl, _, rfl, after, rfl, hafter⟩
      exact ⟨before ++ piece ++ after, by simp, before, after, rfl, hafter⟩
    · rintro ⟨_, rfl, before, after, rfl, hafter⟩
      exact ⟨before, _, by simp, _, rfl, after, rfl, hafter⟩

theorem intercalate_star (head : Text) (middle : List Text) (tail : Text) :
    ['*'].intercalate (head :: (middle ++ [tail])) = head ++ starred middle tail := by
  induction middle generalizing head with
  | nil => simp [starred]
  | cons piece middle ih =>
    rw [List.cons_append, List.intercalate_cons_cons, ih]
    simp [starred]

theorem splitOn_star (pattern : Text) :
    (pattern.splitOn '*' = [pattern] ∧ '*' ∉ pattern) ∨
      ∃ head middle tail, pattern.splitOn '*' = head :: (middle ++ [tail]) ∧
        pattern = head ++ starred middle tail ∧ '*' ∉ head ∧ (∀ piece ∈ middle, '*' ∉ piece) ∧
        '*' ∉ tail := by
  have hpattern : ['*'].intercalate (pattern.splitOn '*') = pattern := List.intercalate_splitOn '*'
  have hfree : ∀ piece ∈ pattern.splitOn '*', '*' ∉ piece := fun _ => Sequence.notMem_of_mem_splitOn
  obtain ⟨head, rest, hpieces⟩ := List.exists_cons_of_ne_nil (List.splitOn_ne_nil '*' pattern)
  rw [hpieces] at hpattern hfree ⊢
  rcases rest.eq_nil_or_concat with rfl | ⟨middle, tail, rfl⟩
  · obtain rfl : head = pattern := by simpa using hpattern
    exact .inl ⟨rfl, hfree head List.mem_cons_self⟩
  · rw [List.concat_eq_append] at hpattern hfree ⊢
    rw [intercalate_star] at hpattern
    exact .inr ⟨head, middle, tail, rfl, hpattern.symm, hfree _ (by simp),
      fun piece hpiece => hfree _ (by simp [hpiece]), hfree _ (by simp)⟩

theorem segmentMatches_eq {pattern head tail : Text} {middle : List Text} (text : Text)
    (h : pattern.splitOn '*' = head :: (middle ++ [tail])) :
    segmentMatches pattern text =
      (tail.length ≤ text.length && head.length ≤ text.length - tail.length &&
        head.isPrefixOf text && tail.isSuffixOf text &&
        middlesMatch middle ((text.take (text.length - tail.length)).drop head.length)) := by
  obtain ⟨second, rest, hrest⟩ : ∃ second rest, middle ++ [tail] = second :: rest :=
    List.exists_cons_of_ne_nil (by simp)
  unfold segmentMatches
  rw [h, hrest]
  dsimp only
  rw [← hrest, List.dropLast_concat, List.getLast?_concat, Option.getD_some]

theorem take_drop_between {α : Type} (head between tail : List α) :
    ((head ++ between ++ tail).take ((head ++ between ++ tail).length - tail.length)).drop
      head.length = between := by
  rw [List.length_append, Nat.add_sub_cancel, List.take_left, List.drop_left]

/-- A list starts and ends with two parts that do not overlap when something stands between them. -/
theorem exists_between_iff {α : Type} {head tail items : List α} :
    (((tail.length ≤ items.length ∧ head.length ≤ items.length - tail.length) ∧ head <+: items) ∧
        tail <:+ items) ↔ ∃ between, items = head ++ between ++ tail := by
  constructor
  · rintro ⟨⟨⟨hlength, hroom⟩, rest, rfl⟩, htail⟩
    rw [List.length_append] at hlength hroom
    have hrest : tail <:+ rest :=
      List.suffix_of_suffix_length_le htail (List.suffix_append _ _) (by omega)
    obtain ⟨between, rfl⟩ := hrest
    exact ⟨between, by rw [List.append_assoc]⟩
  · rintro ⟨between, rfl⟩
    refine ⟨⟨⟨?_, ?_⟩, ⟨between ++ tail, by simp⟩⟩, ⟨head ++ between, rfl⟩⟩
    · rw [List.length_append]
      omega
    · rw [List.length_append, List.length_append]
      omega

theorem segmentMatches_stars {pattern head tail text : Text} {middle : List Text}
    (h : pattern.splitOn '*' = head :: (middle ++ [tail])) :
    segmentMatches pattern text = true ↔
      ∃ between, text = head ++ between ++ tail ∧ middlesMatch middle between = true := by
  rw [segmentMatches_eq text h]
  simp only [Bool.and_eq_true, decide_eq_true_iff, List.isPrefixOf_iff_prefix,
    List.isSuffixOf_iff_suffix]
  constructor
  · rintro ⟨hends, hmiddle⟩
    obtain ⟨between, rfl⟩ := exists_between_iff.mp hends
    rw [take_drop_between] at hmiddle
    exact ⟨between, rfl, hmiddle⟩
  · rintro ⟨between, rfl, hmiddle⟩
    rw [take_drop_between]
    exact ⟨exists_between_iff.mpr ⟨between, rfl⟩, hmiddle⟩

/-- The matcher of a segment finds what the stars mean. -/
theorem segmentMatches_iff {pattern text : Text} :
    segmentMatches pattern text = true ↔ segmentReference pattern text := by
  rcases splitOn_star pattern with ⟨hpieces, hfree⟩ | ⟨head, middle, tail, hpieces, rfl, hhead,
    hmiddle, htail⟩
  · have hwhole := @segmentReference_append pattern [] text hfree
    unfold segmentMatches
    rw [hpieces]
    simpa [segmentReference, eq_comm] using hwhole.symm
  · rw [segmentMatches_stars hpieces, segmentReference_append hhead]
    simp only [segmentReference_starred hmiddle htail, middlesMatch_iff]
    constructor
    · rintro ⟨between, rfl, hspread⟩
      exact ⟨between ++ tail, by simp, between, rfl, hspread⟩
    · rintro ⟨_, rfl, between, rfl, hspread⟩
      exact ⟨between, by simp, hspread⟩

/-! ## Offsets -/

/-- The pieces by their bytes, from the offset on. The result is `none` where a slice would cut a
character or run past the text. -/
def middlesAt (text : Bytes) (stop : Nat) : List Bytes → Nat → Option Bool
  | [], _ => some true
  | piece :: pieces, position => do
    let rest ← strSlice text position stop
    match rest.tails.findIdx? (piece.isPrefixOf ·) with
    | some found => middlesAt text stop pieces (position + found + piece.length)
    | none => return false

/-- `segmentMatches` by offsets into the bytes of the text. -/
def segmentMatchesAt (pattern text : Text) : Option Bool :=
  let bytes := utf8 text
  match (pattern.splitOn '*').map utf8 with
  | head :: second :: rest =>
    let middle := (second :: rest).dropLast
    let tail := (second :: rest).getLast?.getD []
    if bytes.length < tail.length then some false
    else
      let stop := bytes.length - tail.length
      if stop < head.length || !head.isPrefixOf bytes || !tail.isSuffixOf bytes then some false
      else middlesAt bytes stop middle head.length
  | _ => some (pattern = text)

/-- The first place of a piece in the bytes is the one in the text. -/
theorem findIdx?_utf8 (piece text : Text) :
    (utf8 text).tails.findIdx? ((utf8 piece).isPrefixOf ·) =
      (text.tails.findIdx? (piece.isPrefixOf ·)).map fun i => (utf8 (text.take i)).length := by
  cases hfound : text.tails.findIdx? (piece.isPrefixOf ·) with
  | none =>
    rw [findIdx?_tails_eq_none_iff] at hfound
    rw [Option.map_none, findIdx?_tails_eq_none_iff]
    rintro ⟨before, after, hbytes⟩
    have hne : piece ≠ [] := by
      rintro rfl
      exact hfound List.nil_infix
    have hprefix : utf8 piece <+: (utf8 text).drop before.length := by
      rw [← hbytes, List.append_assoc, List.drop_left]
      exact List.prefix_append _ _
    obtain ⟨start, rest, rfl, -, hpiece⟩ := (utf8_prefix_drop_iff hne).mp hprefix
    exact hfound (hpiece.isInfix.trans (List.suffix_append start rest).isInfix)
  | some i =>
    rw [findIdx?_tails_eq_some_iff] at hfound
    obtain ⟨hi, hpiece, hfirst⟩ := hfound
    rw [Option.map_some, findIdx?_tails_eq_some_iff]
    have hsplit : utf8 text = utf8 (text.take i) ++ utf8 (text.drop i) := by
      rw [← utf8_append, List.take_append_drop]
    refine ⟨?_, ?_, ?_⟩
    · rw [hsplit]
      simp
    · rw [hsplit, List.drop_left, utf8_prefix_iff]
      exact hpiece
    · intro j hj hprefix
      rcases eq_or_ne piece [] with rfl | hne
      · have hzero : i = 0 := Nat.le_zero.mp (not_lt.mp fun hpos => hfirst 0 hpos List.nil_prefix)
        simp [hzero] at hj
      · obtain ⟨start, rest, rfl, rfl, hstart⟩ := (utf8_prefix_drop_iff hne).mp hprefix
        have hlt : start.length < i := by
          by_contra hle
          rw [List.take_append_of_le_length (not_lt.mp hle)] at hj
          have hmore := congrArg List.length
            (congrArg utf8 (List.take_append_drop i start)).symm
          rw [utf8_append, List.length_append] at hmore
          omega
        exact hfirst start.length hlt (by rwa [List.drop_left])

theorem strSlice_between (before between after : Text) :
    strSlice (utf8 (before ++ between ++ after)) (utf8 before).length
      (utf8 (before ++ between)).length = some (utf8 between) := by
  have hstart : Boundary (before ++ between ++ after) (utf8 before).length :=
    ⟨before, between ++ after, List.append_assoc _ _ _, rfl⟩
  have hstop : Boundary (before ++ between ++ after) (utf8 (before ++ between)).length :=
    ⟨before ++ between, after, rfl, rfl⟩
  rw [hstart.strSlice hstop (by simp)]
  simp [slice]

theorem middlesAt_eq (pieces : List Text) (before between after : Text) :
    middlesAt (utf8 (before ++ between ++ after)) (utf8 (before ++ between)).length
      (pieces.map utf8) (utf8 before).length = some (middlesMatch pieces between) := by
  induction pieces generalizing before between with
  | nil => rfl
  | cons piece pieces ih =>
    rw [List.map_cons, middlesAt, strSlice_between, Option.bind_eq_bind, Option.bind_some,
      findIdx?_utf8, middlesMatch]
    cases hfound : between.tails.findIdx? (piece.isPrefixOf ·) with
    | none => rfl
    | some i =>
      obtain ⟨-, ⟨rest, hrest⟩, -⟩ := findIdx?_tails_eq_some_iff.mp hfound
      have hsplit : between = between.take i ++ piece ++ rest := by
        rw [List.append_assoc, hrest, List.take_append_drop]
      have hdrop : between.drop (i + piece.length) = rest := by
        rw [← List.drop_drop, ← hrest, List.drop_left]
      have hnext := ih (before ++ between.take i ++ piece) rest
      rw [show before ++ between.take i ++ piece ++ rest = before ++ between by
        conv_rhs => rw [hsplit]
        simp] at hnext
      rw [Option.map_some]
      dsimp only
      rw [hdrop, ← hnext]
      congr 1
      simp [Nat.add_assoc]

/-- The bytes of a text start and end with those of two parts when the text does with the parts. -/
theorem utf8_between_iff {head tail text : Text} :
    (∃ between, utf8 text = utf8 head ++ between ++ utf8 tail) ↔
      ∃ between, text = head ++ between ++ tail := by
  constructor
  · rintro ⟨between, htext⟩
    have hhead : utf8 head <+: utf8 text := ⟨between ++ utf8 tail, by rw [htext, List.append_assoc]⟩
    obtain ⟨rest, rfl⟩ := utf8_prefix_iff.mp hhead
    rcases eq_or_ne tail [] with rfl | hne
    · exact ⟨rest, by simp⟩
    rw [utf8_append, List.append_assoc, List.append_cancel_left_eq] at htext
    have hprefix : utf8 tail <+: (utf8 rest).drop between.length := by
      rw [htext, List.drop_left]
    obtain ⟨before, after, rfl, hbefore, -⟩ := (utf8_prefix_drop_iff hne).mp hprefix
    rw [utf8_append] at htext
    obtain rfl : after = tail := utf8_injective (List.append_inj htext hbefore.symm).2
    exact ⟨before, by simp⟩
  · rintro ⟨between, rfl⟩
    exact ⟨utf8 between, by simp⟩

/-- Every slice of a segment lies on character boundaries. -/
theorem segmentMatchesAt_eq (pattern text : Text) :
    segmentMatchesAt pattern text = some (segmentMatches pattern text) := by
  rcases splitOn_star pattern with ⟨hpieces, hfree⟩ | ⟨head, middle, tail, hpieces, hpattern, -⟩
  · unfold segmentMatchesAt segmentMatches
    rw [hpieces]
    rfl
  · obtain ⟨second, rest, hrest⟩ : ∃ second rest, (middle ++ [tail]).map utf8 = second :: rest :=
      List.exists_cons_of_ne_nil (by simp)
    have hmiddle : (second :: rest).dropLast = middle.map utf8 := by simp [← hrest]
    have htail : (second :: rest).getLast?.getD [] = utf8 tail := by simp [← hrest]
    unfold segmentMatchesAt
    rw [hpieces, List.map_cons, hrest]
    dsimp only
    rw [hmiddle, htail]
    by_cases hends : ∃ between, text = head ++ between ++ tail
    · obtain ⟨between, rfl⟩ := hends
      obtain ⟨⟨⟨hlength, hroom⟩, hhead⟩, hlast⟩ :=
        exists_between_iff.mpr (utf8_between_iff.mpr ⟨between, rfl⟩)
      have hstop : (utf8 (head ++ between ++ tail)).length - (utf8 tail).length =
          (utf8 (head ++ between)).length := by
        rw [utf8_append, List.length_append, Nat.add_sub_cancel]
      have hwhole : segmentMatches pattern (head ++ between ++ tail) = middlesMatch middle between := by
        rw [Bool.eq_iff_iff, segmentMatches_stars hpieces]
        constructor
        · rintro ⟨found, hfound, hmatch⟩
          simp only [List.append_cancel_left_eq, List.append_cancel_right_eq] at hfound
          exact hfound ▸ hmatch
        · exact fun hmatch => ⟨between, rfl, hmatch⟩
      have hkeep : (decide ((utf8 (head ++ between ++ tail)).length - (utf8 tail).length <
          (utf8 head).length) || !(utf8 head).isPrefixOf (utf8 (head ++ between ++ tail)) ||
          !(utf8 tail).isSuffixOf (utf8 (head ++ between ++ tail))) = false := by
        rw [decide_eq_false (not_lt.mpr hroom), List.isPrefixOf_iff_prefix.mpr hhead,
          List.isSuffixOf_iff_suffix.mpr hlast]
        rfl
      rw [if_neg (not_lt.mpr hlength), hkeep, if_neg Bool.false_ne_true, hstop, middlesAt_eq, hwhole]
    · have hwhole : segmentMatches pattern text = false := by
        rw [Bool.eq_false_iff, ne_eq, segmentMatches_stars hpieces]
        exact fun ⟨between, htext, _⟩ => hends ⟨between, htext⟩
      rw [hwhole]
      split_ifs with hshort hmiss
      · rfl
      · rfl
      · refine absurd (utf8_between_iff.mp (exists_between_iff.mp ?_)) hends
        simpa [not_lt, and_assoc] using And.intro (not_lt.mp hshort) hmiss

/-! ## Whole segments -/

/-- What one element of a glob consumes. `**` takes a run of whole segments, which is not empty when
the element is the last one. -/
def Consumes (whole : Text → Prop) (last : Bool) (element : Text) (run : List Text) : Prop :=
  if element = globstarElement then (∀ segment ∈ run, whole segment) ∧ (last = true → run ≠ [])
  else ∃ segment, run = [segment] ∧ segmentReference element segment

/-- The elements consume all segments, one element after the other. -/
def globReference (whole : Text → Prop) : List Text → List Text → Prop
  | [], segments => segments = []
  | element :: elements, segments => ∃ run rest, segments = run ++ rest ∧
      Consumes whole elements.isEmpty element run ∧ globReference whole elements rest

/-- A table over a list says of each of its first parts whether it has the property. -/
structure Table {α : Type} (items : List α) (holds : List α → Prop) (table : List Bool) : Prop where
  length : table.length = items.length + 1
  get : ∀ j ≤ items.length, table[j]? = some true ↔ holds (items.take j)

/-- The runs that have the property before a run that the element consumes. -/
def After (holds : List Text → Prop) (last : Bool) (element : Text) (run : List Text) : Prop :=
  ∃ before more, run = before ++ more ∧ holds before ∧ Consumes (· ≠ []) last element more

section Table

variable {segments : List Text} {holds : List Text → Prop} {reached : List Bool}

theorem Table.exists_get (h : Table segments holds reached) {j : Nat} (hj : j ≤ segments.length) :
    ∃ value, reached[j]? = some value ∧ (value = true ↔ holds (segments.take j)) := by
  have hlength := h.length
  refine ⟨reached[j], List.getElem?_eq_getElem (by omega), ?_⟩
  rw [← h.get j hj, List.getElem?_eq_getElem (by omega), Option.some_inj]

theorem Table.step (h : Table segments holds reached) {element : Text} (last : Bool)
    (helement : element ≠ globstarElement) :
    Table segments (After holds last element) (globStep reached segments element) := by
  have hlength := h.length
  refine ⟨by simp [globStep, hlength], fun j hj => ?_⟩
  unfold globStep After Consumes
  simp only [if_neg helement]
  cases j with
  | zero =>
    simp only [List.getElem?_cons_zero, List.take_zero, Option.some_inj, Bool.false_eq_true, false_iff]
    rintro ⟨before, _, hrun, -, segment, rfl, -⟩
    simp at hrun
  | succ j =>
    obtain ⟨value, hvalue, hiff⟩ := h.exists_get (Nat.le_of_succ_le hj)
    have hsegment : segments[j]? = some segments[j] := List.getElem?_eq_getElem hj
    have hentry : (reached.zip segments)[j]? = some (value, segments[j]) :=
      List.getElem?_zip_eq_some.mpr ⟨hvalue, hsegment⟩
    rw [List.getElem?_cons_succ, List.getElem?_map, hentry, Option.map_some, Option.some_inj, Bool.and_eq_true, hiff, segmentMatches_iff,
      List.take_add_one, hsegment, Option.toList_some]
    constructor
    · exact fun ⟨hbefore, hmatch⟩ => ⟨_, _, rfl, hbefore, _, rfl, hmatch⟩
    · rintro ⟨before, _, hrun, hbefore, segment, rfl, hmatch⟩
      obtain ⟨rfl, hsame⟩ := List.append_inj' hrun rfl
      obtain rfl : segments[j] = segment := by simpa using hsame
      exact ⟨hbefore, hmatch⟩

/-- The runs that have the property before one or more whole segments. -/
def Spreads (holds : List Text → Prop) (run : List Text) : Prop :=
  ∃ before more, run = before ++ more ∧ holds before ∧ more ≠ [] ∧ ∀ segment ∈ more, segment ≠ []

theorem spreads_concat (run : List Text) (segment : Text) :
    Spreads holds (run ++ [segment]) ↔ segment ≠ [] ∧ (holds run ∨ Spreads holds run) := by
  constructor
  · rintro ⟨before, more, hrun, hbefore, hne, hwhole⟩
    rcases more.eq_nil_or_concat with rfl | ⟨more, last, rfl⟩
    · exact absurd rfl hne
    rw [List.concat_eq_append] at hrun hwhole
    rw [← List.append_assoc] at hrun
    obtain ⟨rfl, hsame⟩ := List.append_inj' hrun rfl
    obtain rfl : segment = last := by simpa using hsame
    refine ⟨hwhole segment (by simp), ?_⟩
    rcases eq_or_ne more [] with rfl | hmore
    · exact .inl (by simpa using hbefore)
    · exact .inr ⟨before, more, rfl, hbefore, hmore, fun other hother => hwhole other (by simp [hother])⟩
  · rintro ⟨hsegment, hrun | ⟨before, more, rfl, hbefore, hne, hwhole⟩⟩
    · exact ⟨run, [segment], rfl, hrun, by simp, by simpa using hsegment⟩
    · exact ⟨before, more ++ [segment], by simp, hbefore, by simp, by grind⟩

theorem Table.spread (h : Table segments holds reached) (count : Nat) (hcount : count ≤ segments.length) :
    Table (segments.take count) (Spreads holds)
      (((reached.zip segments).take count).foldl (fun spread entry =>
        spread ++ [entry.2 ≠ [] && (entry.1 || spread.getLast?.getD false)]) [false]) := by
  induction count with
  | zero =>
    refine ⟨rfl, fun j hj => ?_⟩
    obtain rfl : j = 0 := by simpa using hj
    simp [Spreads]
  | succ count ih =>
    obtain ⟨hlength, hget⟩ := ih (Nat.le_of_succ_le hcount)
    obtain ⟨value, hvalue, hiff⟩ := h.exists_get (Nat.le_of_succ_le hcount)
    have hsegment : segments[count]? = some segments[count] := List.getElem?_eq_getElem hcount
    have hentry : (reached.zip segments)[count]? = some (value, segments[count]) :=
      List.getElem?_zip_eq_some.mpr ⟨hvalue, hsegment⟩
    have hentries : (reached.zip segments).take (count + 1) =
        (reached.zip segments).take count ++ [(value, segments[count])] := by
      rw [List.take_add_one, hentry, Option.toList_some]
    have hsegments : segments.take (count + 1) = segments.take count ++ [segments[count]] := by
      rw [List.take_add_one, hsegment, Option.toList_some]
    rw [hentries, hsegments, List.foldl_append, List.foldl_cons, List.foldl_nil]
    set spread := ((reached.zip segments).take count).foldl (fun spread entry =>
      spread ++ [entry.2 ≠ [] && (entry.1 || spread.getLast?.getD false)]) [false]
    have hcut : (segments.take count).length = count := List.length_take_of_le (by omega)
    rw [hcut] at hlength hget
    have hlast : spread.getLast?.getD false = true ↔ Spreads holds (segments.take count) := by
      have hmem := hget count (Nat.le_refl _)
      rw [List.take_take, Nat.min_self] at hmem
      rw [← hmem, List.getLast?_eq_getElem?, hlength, Nat.add_sub_cancel]
      cases spread[count]? <;> simp
    refine ⟨by rw [List.length_append, List.length_append, hlength, hcut]; rfl, fun j hj => ?_⟩
    rw [List.length_append, List.length_singleton, hcut] at hj
    rcases hj.lt_or_eq with hlt | rfl
    · rw [List.getElem?_append_left (by omega), hget j (by omega),
        List.take_append_of_le_length (by omega)]
    · rw [List.getElem?_append_right (by omega), hlength, Nat.sub_self, List.getElem?_cons_zero,
        Option.some_inj, List.take_of_length_le (by simp), spreads_concat]
      simp [hlast, hiff]

theorem Table.globstar (h : Table segments holds reached) (last : Bool) :
    Table segments (After holds last globstarElement) (globstar reached segments last) := by
  have hspread := h.spread segments.length (Nat.le_refl _)
  have hzip : (reached.zip segments).length = segments.length := by
    rw [List.length_zip, h.length]
    omega
  rw [List.take_length, ← hzip, List.take_length] at hspread
  unfold Checks.globstar
  set spread := (reached.zip segments).foldl (fun spread entry =>
    spread ++ [entry.2 ≠ [] && (entry.1 || spread.getLast?.getD false)]) [false]
  have hafter (run : List Text) : After holds last globstarElement run ↔
      Spreads holds run ∨ last = false ∧ holds run := by
    unfold After Consumes
    simp only [if_true]
    constructor
    · rintro ⟨before, more, rfl, hbefore, hwhole, hlast⟩
      rcases eq_or_ne more [] with rfl | hne
      · refine .inr ⟨?_, by simpa using hbefore⟩
        simpa using hlast
      · exact .inl ⟨before, more, rfl, hbefore, hne, hwhole⟩
    · rintro (⟨before, more, rfl, hbefore, hne, hwhole⟩ | ⟨hlast, hrun⟩)
      · exact ⟨before, more, rfl, hbefore, hwhole, fun _ => hne⟩
      · exact ⟨run, [], by simp, hrun, by simp, by simp [hlast]⟩
  cases last with
  | true =>
    refine ⟨hspread.length, fun j hj => ?_⟩
    simpa [hafter] using hspread.get j hj
  | false =>
    refine ⟨by simp [h.length, hspread.length], fun j hj => ?_⟩
    obtain ⟨was, hwas, hwasiff⟩ := h.exists_get hj
    obtain ⟨more, hmore, hmoreiff⟩ := hspread.exists_get hj
    have hentry : (reached.zip spread)[j]? = some (was, more) :=
      List.getElem?_zip_eq_some.mpr ⟨hwas, hmore⟩
    rw [if_neg Bool.false_ne_true, List.getElem?_map, hentry, Option.map_some, Option.some_inj,
      Bool.or_eq_true, hwasiff, hmoreiff, hafter]
    simp [or_comm]

end Table

/-- The elements with their places consume the run, the last element being the one before `count`. -/
def Consumed (count : Nat) (elements : List (Text × Nat)) : List Text → Prop :=
  elements.foldl (fun holds entry => After holds (entry.2 = count - 1) entry.1) (· = [])

theorem table_foldl {segments : List Text} (count : Nat) (elements : List (Text × Nat)) :
    Table segments (Consumed count elements) (elements.foldl (fun reached entry =>
      if entry.1 = globstarElement then globstar reached segments (entry.2 = count - 1)
      else globStep reached segments entry.1) (true :: segments.map fun _ => false)) := by
  induction elements using List.reverseRecOn with
  | nil =>
    refine ⟨by simp, fun j hj => ?_⟩
    cases j with
    | zero => simp [Consumed]
    | succ j =>
      have hne : segments.take (j + 1) ≠ [] := List.ne_nil_of_length_pos (by simp; omega)
      simp [Consumed, hne, List.getElem?_replicate]
  | append_singleton elements entry ih =>
    unfold Consumed at ih ⊢
    rw [List.foldl_append, List.foldl_append, List.foldl_cons, List.foldl_nil, List.foldl_cons,
      List.foldl_nil]
    split_ifs with helement
    · rw [helement]
      exact ih.globstar _
    · exact ih.step _ helement

theorem consumed_iff (elements : List Text) (start count : Nat) (hcount : count = start + elements.length)
    (holds : List Text → Prop) (segments : List Text) :
    (elements.zipIdx start).foldl (fun holds entry => After holds (entry.2 = count - 1) entry.1) holds
      segments ↔
      ∃ before rest, segments = before ++ rest ∧ holds before ∧ globReference (· ≠ []) elements rest := by
  induction elements generalizing start holds with
  | nil => simp [globReference]
  | cons element elements ih =>
    rw [List.zipIdx_cons, List.foldl_cons, ih (start + 1) (by simp at hcount; omega)]
    have hlast : decide (start = count - 1) = elements.isEmpty := by
      cases elements with
      | nil => simp [hcount]
      | cons => simp [hcount]
    unfold After
    simp only [hlast, globReference]
    constructor
    · rintro ⟨_, rest, rfl, ⟨before, run, rfl, hbefore, hrun⟩, hrest⟩
      exact ⟨before, run ++ rest, by simp, hbefore, run, rest, rfl, hrun, hrest⟩
    · rintro ⟨before, _, rfl, hbefore, run, rest, rfl, hrun, hrest⟩
      exact ⟨before ++ run, rest, by simp, ⟨before, run, rfl, hbefore, hrun⟩, hrest⟩

/-- The matcher of a glob finds what its stars mean, a `**` being whole segments that are not
empty. -/
theorem globMatches_iff (elements segments : List Text) :
    globMatches elements segments = true ↔ globReference (· ≠ []) elements segments := by
  obtain ⟨hlength, hget⟩ := @table_foldl segments elements.length elements.zipIdx
  have hlast := hget segments.length (Nat.le_refl _)
  rw [List.take_length] at hlast
  have hconsumed := consumed_iff elements 0 elements.length (by simp) (· = []) segments
  unfold globMatches
  dsimp only
  rw [Option.getD_eq_iff]
  simp only [Bool.false_eq_true, and_false, or_false, hlast, Consumed, hconsumed]
  constructor
  · rintro ⟨_, rest, rfl, rfl, hrest⟩
    exact hrest
  · exact fun hrest => ⟨[], segments, rfl, rfl, hrest⟩

/-- A path is in the boundary when a glob means it, and no slice of a segment cuts a character. -/
theorem inBoundary_iff (path : Text) (globs : List Text) :
    (inBoundary path globs = true ↔
      ∃ glob ∈ globs, globReference (· ≠ []) (glob.splitOn '/') (path.splitOn '/')) ∧
    (∀ elements segments, globMatches elements segments = true ↔
      globReference (· ≠ []) elements segments) ∧
    (∀ pattern text, segmentMatches pattern text = true ↔ segmentReference pattern text) ∧
    ∀ pattern text, segmentMatchesAt pattern text = some (segmentMatches pattern text) := by
  refine ⟨?_, globMatches_iff, fun _ _ => segmentMatches_iff, segmentMatchesAt_eq⟩
  simp only [inBoundary, List.any_eq_true, globMatches_iff]

/-- A `**` passes over no empty segment. -/
theorem globstar_misses_empty :
    globMatches ["a".toList, "**".toList, "b".toList] ["a".toList, [], "b".toList] = false ∧
      globReference (fun _ => True) ["a".toList, "**".toList, "b".toList]
        ["a".toList, [], "b".toList] := by
  have hletter (c : Char) (hc : c ≠ '*') : Consumes (fun _ => True) false [c] [[c]] ∧
      Consumes (fun _ => True) true [c] [[c]] := by
    have hsegment : segmentReference [c] [c] := by simp [segmentReference, hc]
    have hne : [c] ≠ globstarElement := by simp [globstarElement]
    constructor
    · rw [Consumes, if_neg hne]
      exact ⟨[c], rfl, hsegment⟩
    · rw [Consumes, if_neg hne]
      exact ⟨[c], rfl, hsegment⟩
  refine ⟨by decide, [['a']], [[], ['b']], rfl, (hletter 'a' (by decide)).1, [[]], [['b']], rfl, ?_,
    [['b']], [], rfl, (hletter 'b' (by decide)).2, rfl⟩
  rw [Consumes, if_pos (by rfl)]
  exact ⟨fun _ _ => trivial, by simp⟩

end Agentless.Checks
