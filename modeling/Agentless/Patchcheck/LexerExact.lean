import Agentless.Patchcheck.Lexer

/-!
# The bracket scanner is compositional

Every literal of a text ends in it, so every character gets a depth. What stands between a bracket
outside literals and its closing bracket is scanned alone as it is in the whole text: no literal
crosses either bracket, and the prefix letters of a literal end at a bracket.
-/

namespace Agentless.Patchcheck

open Text

/-! ## Every literal ends in the text -/

section Total

variable {text : Text} {start stop : Nat} {frame : Frame} {outer : List Frame} {step : Step}

def Literal.marker : Literal → Nat
  | plain marker | formatted marker => marker

theorem triple_of_opensTriple (h : opensTriple text start) : start + triple ≤ text.length := by
  have hlength : ((text.drop start).take triple).length = triple := by
    unfold opensTriple at h
    split at h
    · next hrun => rw [hrun]; rfl
    · cases h
  rw [List.length_take, List.length_drop] at hlength
  simp only [triple] at hlength ⊢
  omega

theorem marker_literalAt (text : Text) (start : Nat) :
    (literalAt text start).marker = if opensTriple text start then triple else 1 := by
  unfold literalAt
  dsimp only
  split_ifs <;> rfl

theorem literalAt_fits (h : start < text.length) :
    start + (literalAt text start).marker ≤ text.length := by
  rw [marker_literalAt]
  split_ifs with htriple
  · exact triple_of_opensTriple htriple
  · exact h

theorem exists_plainEnd {marker : Nat} (h : start < text.length)
    (hmarker : marker = triple → start + marker ≤ text.length) :
    ∃ stop, plainEnd text start marker = some stop := by
  unfold plainEnd
  split_ifs with htriple hfits
  · exact ⟨_, rfl⟩
  · exact absurd (htriple ▸ hmarker htriple) hfits
  · rw [List.drop_eq_getElem_cons h]
    exact ⟨_, rfl⟩

/-- The quote marker of an f-string stands in the text. -/
def Frame.Fits (text : Text) (frame : Frame) : Prop := frame.start + frame.marker ≤ text.length

/-- What a step leads to stands in the text. -/
def Step.Fits (text : Text) : Step → Prop
  | advance _ _ => True
  | nested frame => frame.Fits text
  | ended index => index ≤ text.length

theorem exists_fieldStep (hindex : frame.index < text.length) (c : Char) :
    ∃ step, fieldStep text frame c = some step ∧ step.Fits text := by
  unfold fieldStep
  split_ifs with hquote hbreak
  · have hfits := literalAt_fits hindex
    cases hliteral : literalAt text frame.index with
    | formatted marker =>
      rw [hliteral] at hfits
      exact ⟨_, rfl, hfits⟩
    | plain marker =>
      rw [hliteral] at hfits
      obtain ⟨stop, hstop⟩ := exists_plainEnd hindex fun _ => hfits
      exact ⟨.advance stop frame.depth, congrArg (Option.map _) hstop, trivial⟩
  · exact ⟨_, rfl, hindex⟩
  · exact ⟨_, rfl, trivial⟩

theorem braceStep_fits (text : Text) (frame : Frame) (c : Char) :
    (braceStep text frame c).Fits text := by
  unfold braceStep Frame.skip
  split_ifs <;> trivial

theorem exists_fstringStep (hframe : frame.Fits text) :
    ∃ step, fstringStep text frame = some step ∧ step.Fits text := by
  unfold fstringStep
  by_cases hindex : frame.index < text.length
  · rw [List.drop_eq_getElem_cons hindex]
    dsimp only
    split_ifs with hescape hrange hmarker hbrace
    · exact ⟨_, rfl, trivial⟩
    · exact absurd hframe (not_le.mpr hrange)
    · refine ⟨_, rfl, ?_⟩
      have hlength := (List.isPrefixOf_iff_prefix.mp hmarker.2).length_le
      rw [← List.drop_eq_getElem_cons hindex, List.length_take, List.length_drop,
        List.length_drop] at hlength
      have hfits : frame.start + frame.marker ≤ text.length := hframe
      change frame.index + frame.marker ≤ text.length
      omega
    · exact ⟨_, rfl, braceStep_fits _ _ _⟩
    · exact exists_fieldStep hindex _
  · rw [List.drop_eq_nil_of_le (not_lt.mp hindex)]
    exact ⟨_, rfl, le_refl _⟩

theorem fstringEnd_advance {index depth : Nat}
    (h : fstringStep text frame = some (.advance index depth)) :
    fstringEnd text frame outer = fstringEnd text { frame with index, depth } outer := by
  rw [fstringEnd]
  split <;> simp_all

theorem fstringEnd_nested {inner : Frame} (h : fstringStep text frame = some (.nested inner)) :
    fstringEnd text frame outer = fstringEnd text inner (frame :: outer) := by
  rw [fstringEnd]
  split <;> simp_all

theorem fstringEnd_last (h : fstringStep text frame = some (.ended stop)) :
    fstringEnd text frame [] = some stop := by
  rw [fstringEnd]
  split <;> simp_all

theorem fstringEnd_ended {last : Frame} (h : fstringStep text frame = some (.ended stop)) :
    fstringEnd text frame (last :: outer) =
      fstringEnd text { last with index := stop } outer := by
  rw [fstringEnd]
  split <;> simp_all

/-- An f-string ends in the text, and not before where its scan stands. -/
theorem exists_fstringEnd (hframe : frame.Fits text) (houter : ∀ frame ∈ outer, frame.Fits text) :
    ∃ stop, fstringEnd text frame outer = some stop ∧ stop ≤ text.length ∧
      (frame.index ≤ stop ∨ text.length ≤ stop) := by
  induction hsize : 2 * (text.length - frame.index) + outer.length using Nat.strong_induction_on
    generalizing frame outer with
  | _ size ih =>
    obtain ⟨step, hstep, hfits⟩ := exists_fstringStep hframe
    have hforward := fstringStep_forward hstep
    cases step with
    | advance index depth =>
      have hmoved : frame.index < text.length ∧ frame.index < index := hforward
      obtain ⟨stop, hstop, hle, hafter⟩ :=
        @ih _ (by simp only; omega) { frame with index, depth } outer hframe houter rfl
      exact ⟨stop, (fstringEnd_advance hstep).trans hstop, hle, by simp only at hafter; omega⟩
    | nested inner =>
      have hmoved : frame.index < text.length ∧ frame.index < inner.index := hforward
      obtain ⟨stop, hstop, hle, hafter⟩ :=
        @ih (2 * (text.length - inner.index) + (frame :: outer).length)
          (by simp only [List.length_cons]; omega) inner (frame :: outer) hfits
          (List.forall_mem_cons.mpr ⟨hframe, houter⟩) rfl
      exact ⟨stop, (fstringEnd_nested hstep).trans hstop, hle, by omega⟩
    | ended index =>
      have hmoved : frame.index ≤ index ∨ text.length ≤ index := hforward
      have hend : index ≤ text.length := hfits
      cases outer with
      | nil => exact ⟨index, fstringEnd_last hstep, hend, hmoved⟩
      | cons last outer =>
        obtain ⟨hlast, hrest⟩ := List.forall_mem_cons.mp houter
        obtain ⟨stop, hstop, hle, hafter⟩ :=
          @ih (2 * (text.length - index) + outer.length)
            (by simp only [List.length_cons] at hsize; omega) { last with index } outer hlast hrest
            rfl
        refine ⟨stop, (fstringEnd_ended hstep).trans hstop, hle, ?_⟩
        have hafter : index ≤ stop ∨ text.length ≤ stop := hafter
        omega

theorem fits_of_fstringStep (hframe : frame.Fits text) (h : fstringStep text frame = some step) :
    step.Fits text := by
  obtain ⟨found, hfound, hfits⟩ := exists_fstringStep hframe
  rw [h] at hfound
  cases hfound
  exact hfits

/-- The scan ends no earlier than where its next step leads. -/
theorem reached_le_fstringEnd (hframe : frame.Fits text) (houter : ∀ frame ∈ outer, frame.Fits text)
    (hstep : fstringStep text frame = some step) (h : fstringEnd text frame outer = some stop) :
    step.reached ≤ stop ∨ text.length ≤ stop := by
  have after : ∀ {frame : Frame} {outer : List Frame}, frame.Fits text →
      (∀ frame ∈ outer, frame.Fits text) → fstringEnd text frame outer = some stop →
        frame.index ≤ stop ∨ text.length ≤ stop := by
    intro frame outer hframe houter h
    obtain ⟨found, hfound, -, hafter⟩ := exists_fstringEnd hframe houter
    rw [h] at hfound
    cases hfound
    exact hafter
  cases step with
  | advance index depth =>
    rw [fstringEnd_advance hstep] at h
    exact @after { frame with index, depth } outer hframe houter h
  | nested inner =>
    rw [fstringEnd_nested hstep] at h
    exact after (fits_of_fstringStep hframe hstep) (List.forall_mem_cons.mpr ⟨hframe, houter⟩) h
  | ended index =>
    cases outer with
    | nil =>
      rw [fstringEnd_last hstep] at h
      cases h
      exact .inl (le_refl _)
    | cons last outer =>
      obtain ⟨hlast, hrest⟩ := List.forall_mem_cons.mp houter
      rw [fstringEnd_ended hstep] at h
      exact @after { last with index } outer hlast hrest h

theorem position_drop {needle rest : Text} {at_ : Nat} (h : position needle rest = some at_) :
    needle <+: rest.drop at_ := by
  induction rest generalizing at_ with
  | nil => cases h
  | cons c rest ih =>
    unfold position at h
    split_ifs at h with hhere
    · cases h
      exact List.isPrefixOf_iff_prefix.mp hhere
    · obtain ⟨before, hbefore, rfl⟩ := Option.map_eq_some_iff.mp h
      exact ih hbefore

theorem find_drop {needle : Text} {from_ : Nat} (h : find text needle from_ = some stop) :
    needle <+: text.drop stop := by
  unfold find at h
  split_ifs at h
  obtain ⟨at_, hat, rfl⟩ := Option.map_eq_some_iff.mp h
  have hdrop := position_drop hat
  rwa [List.drop_drop, Nat.add_comm] at hdrop

theorem literalAt_pos (text : Text) (start : Nat) : 0 < (literalAt text start).marker := by
  rw [marker_literalAt]
  split_ifs <;> decide

theorem exists_literalEnd (h : start < text.length) :
    ∃ stop, literalEnd text start = some stop ∧ start < stop ∧ stop ≤ text.length := by
  unfold literalEnd
  split_ifs with hcomment
  · refine ⟨_, rfl, ?_⟩
    cases hfind : find text ['\n'] start with
    | none => exact ⟨h, le_refl _⟩
    | some found =>
      have hle := find_le hfind
      have hfound := find_drop hfind
      have hne : start ≠ found := by
        rintro rfl
        rw [List.drop_eq_getElem_cons h, List.cons_prefix_cons, ← Option.some.injEq,
          ← List.getElem?_eq_getElem h, hcomment] at hfound
        exact absurd hfound.1 (by decide)
      simp only [Option.getD_some, List.length_singleton] at hle ⊢
      omega
  · have hfits := literalAt_fits h
    cases hliteral : literalAt text start with
    | formatted marker =>
      rw [hliteral] at hfits
      have hopened : (Frame.opened start marker).Fits text := hfits
      obtain ⟨stop, hstop, hle, hafter⟩ :=
        exists_fstringEnd hopened (List.forall_mem_nil _)
      have hpos := literalAt_pos text start
      rw [hliteral] at hpos
      have hpos : 0 < marker := hpos
      have hafter : start + marker ≤ stop ∨ text.length ≤ stop := hafter
      exact ⟨stop, hstop, by omega, hle⟩
    | plain marker =>
      rw [hliteral] at hfits
      obtain ⟨stop, hstop⟩ := exists_plainEnd h fun _ => hfits
      exact ⟨stop, hstop, plainEnd_bounds hstop⟩

end Total

/-! ## Every character gets a mark -/

section Marks

variable {text : Text} {index stop : Nat} {depth : Int} {found : List (Option Int)}

theorem marksFrom_end (h : text.length ≤ index) : marksFrom text index depth = some [] := by
  rw [marksFrom, dif_neg (not_lt.mpr h)]

theorem marksFrom_literal (h : index < text.length)
    (hc : (quotes.contains text[index] || text[index] = comment) = true) :
    ∃ stop, literalEnd text index = some stop ∧ index < stop ∧ stop ≤ text.length ∧
      marksFrom text index depth =
        (marksFrom text stop depth).map (List.replicate (stop - index) none ++ ·) := by
  obtain ⟨stop, hstop, hlt, hle⟩ := exists_literalEnd h
  refine ⟨stop, hstop, hlt, hle, ?_⟩
  rw [marksFrom, dif_pos h]
  dsimp only
  rw [if_pos hc, hstop]
  exact if_pos ⟨hlt, hle⟩

/-- The depth of a character outside literals, and the depth after it. -/
def levels (c : Char) (depth : Int) : Int × Int :=
  if opening.contains c then (depth + 1, depth + 1)
  else if closing.contains c then (depth, depth - 1)
  else (depth, depth)

theorem marksFrom_char (h : index < text.length)
    (hc : (quotes.contains text[index] || text[index] = comment) = false) :
    marksFrom text index depth =
      (marksFrom text (index + 1) (levels text[index] depth).2).map
        (some (levels text[index] depth).1 :: ·) := by
  rw [marksFrom, dif_pos h]
  dsimp only
  rw [if_neg (by rw [hc]; exact Bool.false_ne_true), levels]
  split_ifs <;> rfl

theorem exists_marksFrom (text : Text) (index : Nat) (depth : Int) :
    ∃ found, marksFrom text index depth = some found ∧ found.length = text.length - index := by
  induction hsize : text.length - index using Nat.strong_induction_on generalizing index depth with
  | _ size ih =>
    by_cases h : index < text.length
    swap
    · exact ⟨[], marksFrom_end (not_lt.mp h), by rw [List.length_nil]; omega⟩
    cases hc : quotes.contains text[index] || text[index] = comment with
    | true =>
      obtain ⟨stop, -, hlt, hle, hmarks⟩ := marksFrom_literal h hc
      obtain ⟨rest, hrest, hlength⟩ := ih (text.length - stop) (by omega) stop depth rfl
      refine ⟨List.replicate (stop - index) none ++ rest, by rw [hmarks, hrest]; rfl, ?_⟩
      rw [List.length_append, List.length_replicate]
      omega
    | false =>
      obtain ⟨rest, hrest, hlength⟩ :=
        ih (text.length - (index + 1)) (by omega) (index + 1) (levels text[index] depth).2 rfl
      refine ⟨some (levels text[index] depth).1 :: rest, ?_, ?_⟩
      · rw [marksFrom_char h hc, hrest]
        rfl
      · rw [List.length_cons]
        omega

/-- A mark outside literals is where the scan stands between two steps. -/
theorem marksFrom_drop {at_ : Nat} {level : Int} (h : marksFrom text index depth = some found)
    (hat : found[at_]? = some (some level)) :
    ∃ depth', marksFrom text (index + at_) depth' = some (found.drop at_) := by
  induction at_ using Nat.strong_induction_on generalizing index depth found with
  | _ at_ ih =>
    cases at_ with
    | zero => exact ⟨depth, h⟩
    | succ before =>
      by_cases hindex : index < text.length
      swap
      · rw [marksFrom_end (not_lt.mp hindex)] at h
        cases h
        simp at hat
      cases hc : quotes.contains text[index] || text[index] = comment with
      | true =>
        obtain ⟨stop, -, hlt, hle, hmarks⟩ := @marksFrom_literal _ _ depth hindex hc
        rw [hmarks] at h
        obtain ⟨rest, hrest, rfl⟩ := Option.map_eq_some_iff.mp h
        -- a mark inside the literal is none
        have hpast : stop - index ≤ before + 1 := by
          by_contra hinside
          rw [List.getElem?_append_left (by rw [List.length_replicate]; omega),
            List.getElem?_replicate, if_pos (by omega)] at hat
          cases hat
        rw [List.getElem?_append_right (by rwa [List.length_replicate]),
          List.length_replicate] at hat
        obtain ⟨depth', hdepth⟩ := ih _ (by omega) hrest hat
        refine ⟨depth', ?_⟩
        have hsum : stop + (before + 1 - (stop - index)) = index + (before + 1) := by omega
        rw [List.drop_append, List.drop_eq_nil_of_le (by rwa [List.length_replicate]),
          List.length_replicate, List.nil_append, ← hdepth, hsum]
      | false =>
        rw [marksFrom_char hindex hc] at h
        obtain ⟨rest, hrest, rfl⟩ := Option.map_eq_some_iff.mp h
        obtain ⟨depth', hdepth⟩ := ih before (Nat.lt_succ_self _) hrest hat
        exact ⟨depth', by rwa [Nat.add_assoc, Nat.add_comm 1] at hdepth⟩

end Marks

/-! ## A stretch of the text alone -/

section Window

variable {before inner after : Text} {start stop at_ : Nat}

/-- The text before the stretch ends with a character that no literal's prefix goes past. -/
def Fenced (before : Text) : Prop :=
  ∃ c, before.getLast? = some c ∧ stringPrefixes.contains c = false ∧ isWord c = false

theorem drop_window (h : at_ ≤ inner.length) :
    (before ++ inner ++ after).drop (before.length + at_) = inner.drop at_ ++ after := by
  rw [List.append_assoc, List.drop_length_add_append, List.drop_append_of_le_length h]

theorem take_window (h : at_ ≤ inner.length) :
    (before ++ inner ++ after).take (before.length + at_) = before ++ inner.take at_ := by
  rw [List.append_assoc, List.take_length_add_append, List.take_append_of_le_length h]

theorem position_append {needle rest more : Text} (hne : needle ≠ [])
    (h : position needle (rest ++ more) = some at_) (hfits : at_ + needle.length ≤ rest.length) :
    position needle rest = some at_ := by
  induction rest generalizing at_ with
  | nil =>
    rw [List.length_nil] at hfits
    exact absurd (List.eq_nil_of_length_eq_zero (by omega)) hne
  | cons c rest ih =>
    rw [List.cons_append] at h
    unfold position at h ⊢
    split_ifs at h with hwhole
    · obtain rfl := Option.some.inj h
      have hprefix := List.isPrefixOf_iff_prefix.mp hwhole
      rw [← List.cons_append] at hprefix
      have hhere := List.prefix_of_prefix_length_le hprefix (List.prefix_append _ _)
        (by rwa [Nat.zero_add] at hfits)
      rw [if_pos (List.isPrefixOf_iff_prefix.mpr hhere)]
    · obtain ⟨later, hlater, rfl⟩ := Option.map_eq_some_iff.mp h
      have hnot : ¬needle.isPrefixOf (c :: rest) := fun hhere => hwhole <| by
        have hprefix := (List.isPrefixOf_iff_prefix.mp hhere).trans (List.prefix_append _ more)
        exact List.isPrefixOf_iff_prefix.mpr hprefix
      rw [List.length_cons] at hfits
      rw [if_neg hnot, ih hlater (by omega)]
      rfl

theorem find_window {needle : Text} (hne : needle ≠ [])
    (h : find (before ++ inner ++ after) needle (before.length + start) = some stop)
    (hfits : stop + needle.length ≤ before.length + inner.length) :
    find inner needle start = some (stop - before.length) := by
  have hle := find_le h
  have hstart : start ≤ inner.length := by omega
  unfold find at h ⊢
  split_ifs at h
  obtain ⟨at_, hat, rfl⟩ := Option.map_eq_some_iff.mp h
  rw [drop_window hstart] at hat
  have hwithin : at_ + needle.length ≤ (inner.drop start).length := by
    rw [List.length_drop]
    omega
  rw [if_pos hstart, position_append hne hat hwithin, Option.map_some, Option.some.injEq]
  omega

theorem closed_append {quote : Char} {rest more : Text} {size : Nat}
    (h : closed quote (rest ++ more) = some size) (hfits : size ≤ rest.length) :
    closed quote rest = some size := by
  fun_induction closed quote rest generalizing size with
  | case1 =>
    have hpos := (closed_le h).1
    rw [List.length_nil] at hfits
    omega
  | case2 c hc =>
    have hone : closed quote ([c] ++ more) = some 1 := by
      cases more with
      | nil => exact if_pos hc
      | cons next more => exact (if_neg hc.1).trans (if_pos hc.2)
    exact hone.symm.trans h
  | case3 c hc =>
    have hpos := (closed_le h).1
    rw [List.length_singleton] at hfits
    cases more with
    | nil => exact absurd h (by simp [closed, hc])
    | cons next more =>
      rw [List.singleton_append] at h
      unfold closed at h
      split_ifs at h with hescape hquote
      · obtain ⟨later, hlater, rfl⟩ := Option.map_eq_some_iff.mp h
        omega
      · exact absurd ⟨hescape, hquote⟩ hc
      · obtain ⟨later, hlater, rfl⟩ := Option.map_eq_some_iff.mp h
        have hlater := (closed_le hlater).1
        omega
  | case4 next rest ih =>
    rw [List.cons_append, List.cons_append, closed, if_pos rfl] at h
    obtain ⟨later, hlater, rfl⟩ := Option.map_eq_some_iff.mp h
    simp only [List.length_cons] at hfits
    rw [ih hlater (by omega)]
    rfl
  | case5 c next rest hescape hquote =>
    rw [List.cons_append, List.cons_append, closed, if_neg hescape, if_pos hquote] at h
    exact h
  | case6 c next rest hescape hquote ih =>
    rw [List.cons_append, List.cons_append, closed, if_neg hescape, if_neg hquote] at h
    obtain ⟨later, hlater, rfl⟩ := Option.map_eq_some_iff.mp h
    simp only [List.length_cons] at hfits
    rw [ih hlater (by simp only [List.length_cons]; omega)]
    rfl

theorem rdropWhile_fenced (hbefore : Fenced before) (letters : Text) :
    ((before ++ letters).rdropWhile stringPrefixes.contains).getLast?.any isWord =
        (letters.rdropWhile stringPrefixes.contains).getLast?.any isWord ∧
      (before ++ letters).rtakeWhile stringPrefixes.contains =
        letters.rtakeWhile stringPrefixes.contains := by
  obtain ⟨c, hlast, hprefix, hword⟩ := hbefore
  obtain ⟨before, rfl⟩ := List.getLast?_eq_some_iff.mp hlast
  induction letters using List.reverseRecOn with
  | nil =>
    have hneg : ¬stringPrefixes.contains c = true := Bool.not_eq_true _ |>.mpr hprefix
    rw [List.append_nil, List.rdropWhile_concat_neg _ _ _ hneg,
      List.rtakeWhile_concat_neg _ _ _ hneg]
    simp [hword]
  | append_singleton letters letter ih =>
    rw [← List.append_assoc]
    cases hletter : stringPrefixes.contains letter with
    | true =>
      rw [List.rdropWhile_concat_pos _ _ _ hletter, List.rdropWhile_concat_pos _ _ _ hletter,
        List.rtakeWhile_concat_pos _ _ _ hletter, List.rtakeWhile_concat_pos _ _ _ hletter, ih.2]
      exact ⟨ih.1, rfl⟩
    | false =>
      have hneg : ¬stringPrefixes.contains letter = true := Bool.not_eq_true _ |>.mpr hletter
      rw [List.rdropWhile_concat_neg _ _ _ hneg, List.rdropWhile_concat_neg _ _ _ hneg,
        List.rtakeWhile_concat_neg _ _ _ hneg, List.rtakeWhile_concat_neg _ _ _ hneg,
        List.getLast?_concat, List.getLast?_concat]
      exact ⟨rfl, rfl⟩

theorem opensFstring_window (hbefore : Fenced before) (h : start ≤ inner.length) :
    opensFstring (before ++ inner ++ after) (before.length + start) = opensFstring inner start := by
  obtain ⟨hdrop, htake⟩ := rdropWhile_fenced hbefore (inner.take start)
  unfold opensFstring
  dsimp only
  rw [take_window h, hdrop, htake]

theorem opensTriple_window (h : start + triple ≤ inner.length) :
    opensTriple (before ++ inner ++ after) (before.length + start) = opensTriple inner start := by
  have hstart : start ≤ inner.length := by omega
  unfold opensTriple
  rw [drop_window hstart, List.take_append_of_le_length (by rw [List.length_drop]; omega)]

theorem literalAt_window (hbefore : Fenced before) (hstart : start < inner.length)
    (h : start + (literalAt (before ++ inner ++ after) (before.length + start)).marker ≤
      inner.length) :
    literalAt inner start = literalAt (before ++ inner ++ after) (before.length + start) := by
  have htriple : opensTriple (before ++ inner ++ after) (before.length + start) =
      opensTriple inner start := by
    rw [marker_literalAt] at h
    cases hinner : opensTriple inner start with
    | true =>
      rw [opensTriple_window (triple_of_opensTriple hinner), hinner]
    | false =>
      cases hwhole : opensTriple (before ++ inner ++ after) (before.length + start) with
      | false => rfl
      | true =>
        rw [hwhole, if_pos rfl] at h
        rw [← hwhole, opensTriple_window h, hinner]
  unfold literalAt
  rw [htriple, opensFstring_window hbefore hstart.le]

theorem plainEnd_window {marker : Nat} (hafter : after ≠ [])
    (h : plainEnd (before ++ inner ++ after) (before.length + start) marker = some stop)
    (hstop : stop ≤ before.length + inner.length) :
    plainEnd inner start marker = some (stop - before.length) := by
  have hmore := List.length_pos_of_ne_nil hafter
  have hlength : (before ++ inner ++ after).length =
      before.length + inner.length + after.length := by
    rw [List.length_append, List.length_append]
  have hlt := (plainEnd_bounds h).1
  have hstart : start < inner.length := by omega
  unfold plainEnd at h ⊢
  by_cases htriple : marker = triple
  · rw [if_pos htriple] at h ⊢
    split_ifs at h with hfits
    have hend := Option.some.inj h
    cases hfind : find (before ++ inner ++ after)
        (((before ++ inner ++ after).drop (before.length + start)).take triple)
        (before.length + start + triple) with
    | none =>
      rw [hfind, Option.map_none, Option.getD_none] at hend
      omega
    | some found =>
      rw [hfind, Option.map_some, Option.getD_some] at hend
      have hle := find_le hfind
      have hquote : ((before ++ inner ++ after).drop (before.length + start)).take triple =
          (inner.drop start).take triple := by
        rw [drop_window hstart.le,
          List.take_append_of_le_length (by rw [List.length_drop]; omega)]
      have hsize : ((inner.drop start).take triple).length = triple := by
        rw [List.length_take, List.length_drop]
        omega
      have hne : (inner.drop start).take triple ≠ [] :=
        List.ne_nil_of_length_pos (by rw [hsize]; decide)
      rw [hquote, Nat.add_assoc] at hfind
      have hwindow := find_window hne hfind (by rw [hsize]; omega)
      rw [if_pos (by omega)]
      dsimp only
      rw [hwindow, Option.map_some, Option.getD_some, Option.some.injEq]
      omega
  · rw [if_neg htriple] at h ⊢
    rw [drop_window hstart.le, List.drop_eq_getElem_cons hstart, List.cons_append] at h
    rw [List.drop_eq_getElem_cons hstart]
    dsimp only at h ⊢
    have hend := Option.some.inj h
    cases hclosed : closed inner[start] (inner.drop (start + 1) ++ after) with
    | none =>
      rw [hclosed, Option.map_none, Option.getD_none] at hend
      omega
    | some size =>
      rw [hclosed, Option.map_some, Option.getD_some] at hend
      have hwithin : size ≤ (inner.drop (start + 1)).length := by
        rw [List.length_drop]
        omega
      rw [closed_append hclosed hwithin, Option.map_some, Option.getD_some, Option.some.injEq]
      omega

/-! ### F-strings -/

/-- A frame of the stretch where it stands in the whole text. -/
def Frame.shift (by_ : Nat) (frame : Frame) : Frame :=
  { frame with start := by_ + frame.start, index := by_ + frame.index }

@[simp] theorem Frame.shift_start (by_ : Nat) (frame : Frame) :
    (frame.shift by_).start = by_ + frame.start := rfl

@[simp] theorem Frame.shift_marker (by_ : Nat) (frame : Frame) :
    (frame.shift by_).marker = frame.marker := rfl

@[simp] theorem Frame.shift_index (by_ : Nat) (frame : Frame) :
    (frame.shift by_).index = by_ + frame.index := rfl

@[simp] theorem Frame.shift_depth (by_ : Nat) (frame : Frame) :
    (frame.shift by_).depth = frame.depth := rfl

def Step.shift (by_ : Nat) : Step → Step
  | advance index depth => advance (by_ + index) depth
  | nested frame => nested (frame.shift by_)
  | ended index => ended (by_ + index)

theorem marker_cases (text : Text) (start : Nat) :
    (literalAt text start).marker = triple ∨ (literalAt text start).marker = 1 := by
  rw [marker_literalAt]
  split_ifs
  · exact .inl rfl
  · exact .inr rfl

/-- A plain literal ends past its quote marker. -/
theorem plainEnd_marker {text : Text} {marker : Nat} (h : plainEnd text start marker = some stop)
    (hmarker : marker = triple ∨ marker = 1) : start + marker ≤ stop := by
  obtain rfl | rfl := hmarker
  swap
  · exact (plainEnd_bounds h).1
  unfold plainEnd at h
  rw [if_pos rfl] at h
  split_ifs at h with hfits
  obtain rfl := Option.some.inj h
  cases hfind : find text ((text.drop start).take triple) (start + triple) with
  | none => exact hfits
  | some found =>
    have hle := find_le hfind
    simp only [Option.map_some, Option.getD_some]
    omega

theorem length_window : (before ++ inner ++ after).length =
    before.length + inner.length + after.length := by
  rw [List.length_append, List.length_append]

theorem getElem?_window (h : at_ < inner.length) :
    (before ++ inner ++ after)[before.length + at_]? = inner[at_]? := by
  rw [List.append_assoc, List.getElem?_append_right (Nat.le_add_right _ _),
    Nat.add_sub_cancel_left, List.getElem?_append_left h]

theorem braceStep_window {frame : Frame} {c : Char}
    (h : (braceStep (before ++ inner ++ after) (frame.shift before.length) c).reached ≤
      before.length + inner.length) :
    braceStep (before ++ inner ++ after) (frame.shift before.length) c =
      (braceStep inner frame c).shift before.length := by
  by_cases hdoubled : frame.depth = 0 ∧
      (before ++ inner ++ after)[before.length + (frame.index + 1)]? = some c
  · have hstep : braceStep (before ++ inner ++ after) (frame.shift before.length) c =
        (frame.shift before.length).skip 2 := if_pos hdoubled
    rw [hstep] at h ⊢
    have hreached : before.length + frame.index + 2 ≤ before.length + inner.length := h
    have hnext := hdoubled.2
    rw [getElem?_window (by omega)] at hnext
    have hinner : braceStep inner frame c = frame.skip 2 := if_pos ⟨hdoubled.1, hnext⟩
    rw [hinner]
    rfl
  · have hinner : ¬(frame.depth = 0 ∧ inner[frame.index + 1]? = some c) := by
      rintro ⟨hdepth, hnext⟩
      obtain ⟨hlt, -⟩ := List.getElem?_eq_some_iff.mp hnext
      exact hdoubled ⟨hdepth, (getElem?_window hlt).trans hnext⟩
    unfold braceStep
    rw [if_neg hinner]
    exact if_neg hdoubled

theorem fieldStep_window {frame : Frame} {step : Step} {c : Char} (hbefore : Fenced before)
    (hafter : after ≠ []) (hindex : frame.index < inner.length)
    (h : fieldStep (before ++ inner ++ after) (frame.shift before.length) c = some step)
    (hreached : step.reached ≤ before.length + inner.length) :
    ∃ alone, fieldStep inner frame c = some alone ∧ step = alone.shift before.length := by
  unfold fieldStep at h ⊢
  rw [Frame.shift_index, Frame.shift_depth, Frame.shift_marker] at h
  by_cases hquote : 0 < frame.depth ∧ quotes.contains c
  · rw [if_pos hquote] at h ⊢
    cases hliteral : literalAt (before ++ inner ++ after) (before.length + frame.index) with
    | formatted marker =>
      rw [hliteral] at h
      cases h
      have hmarker : before.length + frame.index + marker ≤ before.length + inner.length := hreached
      have hmarker : frame.index + marker ≤ inner.length := by omega
      rw [literalAt_window hbefore hindex (by rw [hliteral]; exact hmarker), hliteral]
      refine ⟨_, rfl, ?_⟩
      simp only [Frame.opened, Step.shift, Frame.shift, Nat.add_assoc]
    | plain marker =>
      rw [hliteral] at h
      obtain ⟨stop, hstop, rfl⟩ := Option.map_eq_some_iff.mp h
      have hwithin : stop ≤ before.length + inner.length := hreached
      have hmarker : frame.index + marker ≤ inner.length := by
        have hcases := marker_cases (before ++ inner ++ after) (before.length + frame.index)
        rw [hliteral] at hcases
        have hpast := plainEnd_marker hstop hcases
        omega
      have hforward := (plainEnd_bounds hstop).1
      rw [literalAt_window hbefore hindex (by rw [hliteral]; exact hmarker), hliteral]
      dsimp only
      rw [plainEnd_window hafter hstop hwithin]
      have hsum : before.length + (stop - before.length) = stop := by omega
      exact ⟨_, rfl, congrArg (Step.advance · frame.depth) hsum.symm⟩
  · rw [if_neg hquote] at h ⊢
    split_ifs at h ⊢ with hbreak
    · cases h
      exact ⟨_, rfl, rfl⟩
    · cases h
      exact ⟨_, rfl, rfl⟩

theorem fstringStep_window {frame : Frame} {step : Step} (hbefore : Fenced before)
    (hafter : after ≠ []) (hframe : frame.Fits inner)
    (h : fstringStep (before ++ inner ++ after) (frame.shift before.length) = some step)
    (hreached : step.reached ≤ before.length + inner.length) :
    ∃ alone, fstringStep inner frame = some alone ∧ step = alone.shift before.length := by
  have hmore := List.length_pos_of_ne_nil hafter
  have hforward := fstringStep_forward h
  rcases lt_or_ge frame.index inner.length with hindex | hindex
  · have hfits : frame.start + frame.marker ≤ inner.length := hframe
    unfold fstringStep at h ⊢
    rw [Frame.shift_start, Frame.shift_index, Frame.shift_marker, Frame.shift_depth,
      drop_window hindex.le, drop_window (by omega),
      List.take_append_of_le_length (by rw [List.length_drop]; omega),
      List.drop_eq_getElem_cons hindex, List.cons_append] at h
    rw [List.drop_eq_getElem_cons hindex]
    dsimp only at h ⊢
    by_cases hescape : inner[frame.index] = '\\'
    · rw [if_pos hescape] at h ⊢
      cases h
      exact ⟨_, rfl, rfl⟩
    rw [if_neg hescape, if_neg (by rw [length_window]; omega)] at h
    rw [if_neg hescape, if_neg (by omega)]
    by_cases hmarker : frame.depth = 0 ∧ ((inner.drop frame.start).take frame.marker).isPrefixOf
        (inner[frame.index] :: (inner.drop (frame.index + 1) ++ after))
    · rw [if_pos hmarker] at h
      cases h
      have hreached : before.length + frame.index + frame.marker ≤
          before.length + inner.length := hreached
      -- the closing marker ends in the stretch
      have hprefix := List.isPrefixOf_iff_prefix.mp hmarker.2
      rw [← List.cons_append] at hprefix
      have hhere := List.prefix_of_prefix_length_le hprefix (List.prefix_append _ _) (by
        rw [List.length_take, ← List.drop_eq_getElem_cons hindex, List.length_drop,
          List.length_drop]
        omega)
      rw [if_pos ⟨hmarker.1, List.isPrefixOf_iff_prefix.mpr hhere⟩]
      exact ⟨_, rfl, congrArg Step.ended (Nat.add_assoc _ _ _)⟩
    have hopen : ¬(frame.depth = 0 ∧ ((inner.drop frame.start).take frame.marker).isPrefixOf
        (inner[frame.index] :: inner.drop (frame.index + 1))) := by
      rintro ⟨hdepth, hhere⟩
      have hprefix := (List.isPrefixOf_iff_prefix.mp hhere).trans (List.prefix_append _ after)
      exact hmarker ⟨hdepth, List.isPrefixOf_iff_prefix.mpr hprefix⟩
    rw [if_neg hmarker] at h
    rw [if_neg hopen]
    split_ifs at h ⊢ with hbrace
    · cases h
      exact ⟨_, rfl, braceStep_window hreached⟩
    · exact fieldStep_window hbefore hafter hindex h hreached
  · have hend : fstringStep inner frame = some (.ended inner.length) := by
      unfold fstringStep
      rw [List.drop_eq_nil_of_le hindex]
    refine ⟨_, hend, ?_⟩
    cases step with
    | advance index depth =>
      have hmoved : _ ∧ before.length + frame.index < index := hforward
      have hreached : index ≤ before.length + inner.length := hreached
      omega
    | nested nested =>
      have hmoved : _ ∧ before.length + frame.index < nested.index := hforward
      have hreached : nested.index ≤ before.length + inner.length := hreached
      omega
    | ended index =>
      have hmoved : before.length + frame.index ≤ index ∨ _ ≤ index := hforward
      rw [length_window] at hmoved
      have hreached : index ≤ before.length + inner.length := hreached
      exact congrArg Step.ended (by omega)

/-- An f-string that ends in the stretch ends at the same place there. -/
theorem fstringEnd_window {frame : Frame} {outer : List Frame} (hbefore : Fenced before)
    (hafter : after ≠ []) (hframe : frame.Fits inner) (houter : ∀ frame ∈ outer, frame.Fits inner)
    (h : fstringEnd (before ++ inner ++ after) (frame.shift before.length)
      (outer.map (Frame.shift before.length)) = some stop)
    (hstop : stop ≤ before.length + inner.length) :
    fstringEnd inner frame outer = some (stop - before.length) := by
  have hmore := List.length_pos_of_ne_nil hafter
  have hlength := @length_window before inner after
  have moved : ∀ {frame : Frame}, frame.Fits inner →
      (frame.shift before.length).Fits (before ++ inner ++ after) := by
    intro frame hfits
    have hfits : frame.start + frame.marker ≤ inner.length := hfits
    change before.length + frame.start + frame.marker ≤ _
    omega
  have houters : ∀ {outer : List Frame}, (∀ frame ∈ outer, frame.Fits inner) →
      ∀ frame ∈ outer.map (Frame.shift before.length), frame.Fits (before ++ inner ++ after) := by
    intro outer hall frame hmem
    obtain ⟨alone, halone, rfl⟩ := List.mem_map.mp hmem
    exact moved (hall alone halone)
  induction hsize : 2 * (inner.length - frame.index) + outer.length using Nat.strong_induction_on
    generalizing frame outer with
  | _ size ih =>
    obtain ⟨step, hstep, hfits⟩ := exists_fstringStep (moved hframe)
    -- the scan ends after each of its steps, so this one stays in the stretch
    have hreached : step.reached ≤ before.length + inner.length := by
      have hafter := reached_le_fstringEnd (moved hframe) (houters houter) hstep h
      omega
    obtain ⟨alone, halone, rfl⟩ := fstringStep_window hbefore hafter hframe hstep hreached
    have hforward := fstringStep_forward halone
    cases alone with
    | advance index depth =>
      have hmoved : frame.index < inner.length ∧ frame.index < index := hforward
      rw [fstringEnd_advance hstep] at h
      rw [fstringEnd_advance halone]
      exact @ih _ (by simp only; omega) { frame with index, depth } outer hframe houter h rfl
    | nested inside =>
      have hmoved : frame.index < inner.length ∧ frame.index < inside.index := hforward
      rw [fstringEnd_nested hstep] at h
      rw [fstringEnd_nested halone]
      exact @ih (2 * (inner.length - inside.index) + (frame :: outer).length)
        (by simp only [List.length_cons]; omega) inside (frame :: outer)
        (fits_of_fstringStep hframe halone) (List.forall_mem_cons.mpr ⟨hframe, houter⟩) h rfl
    | ended index =>
      have hmoved : frame.index ≤ index ∨ inner.length ≤ index := hforward
      cases outer with
      | nil =>
        rw [List.map_nil, fstringEnd_last hstep] at h
        rw [fstringEnd_last halone, ← Option.some.inj h, Nat.add_sub_cancel_left]
      | cons last outer =>
        obtain ⟨hlast, hrest⟩ := List.forall_mem_cons.mp houter
        rw [List.map_cons, fstringEnd_ended hstep] at h
        rw [fstringEnd_ended halone]
        exact @ih (2 * (inner.length - index) + outer.length)
          (by simp only [List.length_cons] at hsize; omega) { last with index } outer hlast hrest h
          rfl

/-- A closing bracket stands after the stretch. -/
def Closed (after : Text) : Prop := ∃ c rest, after = c :: rest ∧ closing.contains c

theorem Closed.ne_nil (h : Closed after) : after ≠ [] := by
  obtain ⟨c, rest, rfl, -⟩ := h
  exact List.cons_ne_nil _ _

theorem literalEnd_window (hbefore : Fenced before) (hafter : Closed after)
    (hstart : start < inner.length)
    (h : literalEnd (before ++ inner ++ after) (before.length + start) = some stop)
    (hstop : stop ≤ before.length + inner.length) :
    literalEnd inner start = some (stop - before.length) := by
  have hmore := List.length_pos_of_ne_nil hafter.ne_nil
  have hlength := @length_window before inner after
  unfold literalEnd at h ⊢
  rw [getElem?_window hstart] at h
  by_cases hcomment : inner[start]? = some comment
  · rw [if_pos hcomment] at h ⊢
    have hend := Option.some.inj h
    cases hfind : find (before ++ inner ++ after) ['\n'] (before.length + start) with
    | none =>
      rw [hfind, Option.getD_none] at hend
      omega
    | some found =>
      rw [hfind, Option.getD_some] at hend
      subst hend
      -- the line does not end at the closing bracket
      have hne : found ≠ before.length + inner.length := by
        rintro rfl
        obtain ⟨c, rest, rfl, hclosing⟩ := hafter
        have hbreak := find_drop hfind
        rw [drop_window (le_refl _), List.drop_length, List.nil_append,
          List.cons_prefix_cons] at hbreak
        rw [← hbreak.1] at hclosing
        exact absurd hclosing (by decide)
      have hwithin : found + 1 ≤ before.length + inner.length := by omega
      rw [find_window (List.cons_ne_nil _ _) hfind hwithin, Option.getD_some]
  · rw [if_neg hcomment] at h ⊢
    have hwhole : before.length + start < (before ++ inner ++ after).length := by omega
    have hfits := literalAt_fits hwhole
    cases hliteral : literalAt (before ++ inner ++ after) (before.length + start) with
    | formatted marker =>
      rw [hliteral] at h hfits
      have hopened : (Frame.opened (before.length + start) marker).Fits
          (before ++ inner ++ after) := hfits
      obtain ⟨found, hfound, -, hpast⟩ := exists_fstringEnd hopened (List.forall_mem_nil _)
      have h : fstringEnd _ _ _ = _ := h
      rw [h] at hfound
      cases hfound
      have hpast : before.length + start + marker ≤ stop ∨ _ ≤ stop := hpast
      have hmarker : start + marker ≤ inner.length := by omega
      rw [literalAt_window hbefore hstart (by rw [hliteral]; exact hmarker), hliteral]
      have hframe : (Frame.opened start marker).Fits inner := hmarker
      refine fstringEnd_window hbefore hafter.ne_nil hframe (List.forall_mem_nil _) ?_ hstop
      rw [← h, Frame.opened, Frame.opened, Nat.add_assoc]
      rfl
    | plain marker =>
      rw [hliteral] at h
      have hcases := marker_cases (before ++ inner ++ after) (before.length + start)
      rw [hliteral] at hcases
      have hpast := plainEnd_marker h hcases
      have hmarker : start + marker ≤ inner.length := by omega
      rw [literalAt_window hbefore hstart (by rw [hliteral]; exact hmarker), hliteral]
      exact plainEnd_window hafter.ne_nil h hstop

/-! ### Marks -/

theorem levels_add (c : Char) (depth base : Int) :
    levels c (depth + base) = ((levels c depth).1 + base, (levels c depth).2 + base) := by
  unfold levels
  split_ifs
  · rw [Int.add_right_comm]
  · rw [Int.sub_eq_add_neg, Int.sub_eq_add_neg, Int.add_right_comm]
  · rfl

/-- The stretch alone is scanned as in the whole text up to a closing bracket outside literals. -/
theorem marksFrom_window {size : Nat} {depth base level : Int} {found : List (Option Int)}
    (hbefore : Fenced before) (hafter : Closed after) (hsize : inner.length = start + size)
    (h : marksFrom (before ++ inner ++ after) (before.length + start) (depth + base) = some found)
    (hlevel : found[size]? = some (some level)) :
    marksFrom inner start depth = some ((found.take size).map (Option.map (· - base))) := by
  have hlength := @length_window before inner after
  induction size using Nat.strong_induction_on generalizing start depth found with
  | _ size ih =>
    rcases size.eq_zero_or_pos with rfl | hpos
    · exact marksFrom_end hsize.le
    have hstart : start < inner.length := by omega
    have hwhole : before.length + start < (before ++ inner ++ after).length := by omega
    have hc : (before ++ inner ++ after)[before.length + start] = inner[start] := by
      rw [← Option.some.injEq, ← List.getElem?_eq_getElem, ← List.getElem?_eq_getElem,
        getElem?_window hstart]
    cases hquote : quotes.contains inner[start] || inner[start] = comment with
    | true =>
      obtain ⟨stop, hstop, hlt, -, hmarks⟩ :=
        @marksFrom_literal _ _ (depth + base) hwhole (by rw [hc]; exact hquote)
      rw [hmarks] at h
      obtain ⟨rest, hrest, rfl⟩ := Option.map_eq_some_iff.mp h
      obtain ⟨taken, rfl⟩ := Nat.exists_eq_add_of_lt hlt
      have htaken : before.length + start + taken + 1 - (before.length + start) = taken + 1 := by
        omega
      rw [htaken] at hlevel ⊢
      -- the closing bracket is outside literals, so this one ends before it
      have hinside : taken + 1 ≤ size := by
        by_contra hcross
        rw [List.getElem?_append_left (by rw [List.length_replicate]; omega),
          List.getElem?_replicate, if_pos (by omega)] at hlevel
        cases hlevel
      obtain ⟨size, rfl⟩ := Nat.exists_eq_add_of_le' hinside
      rw [List.getElem?_append_right (by rw [List.length_replicate]; omega),
        List.length_replicate, Nat.add_sub_cancel] at hlevel
      have halone := literalEnd_window hbefore hafter hstart hstop (by omega)
      have hend : before.length + start + taken + 1 - before.length = start + (taken + 1) := by
        omega
      rw [hend] at halone
      obtain ⟨stop, hstop', -, -, hmarks'⟩ := @marksFrom_literal _ _ depth hstart hquote
      rw [halone] at hstop'
      obtain rfl := Option.some.inj hstop'
      rw [Nat.add_assoc, Nat.add_assoc] at hrest
      have hrun := ih size (by omega) (by omega) hrest hlevel
      have hnone : (List.replicate (taken + 1) (none : Option Int)).take (size + (taken + 1)) =
          List.replicate (taken + 1) none :=
        List.take_of_length_le (by rw [List.length_replicate]; exact hinside)
      rw [hmarks', hrun, Nat.add_sub_cancel_left, Option.map_some, List.take_append,
        List.length_replicate, Nat.add_sub_cancel, hnone, List.map_append, List.map_replicate]
      rfl
    | false =>
      rw [marksFrom_char hwhole (by rw [hc]; exact hquote), hc, levels_add] at h
      obtain ⟨rest, hrest, rfl⟩ := Option.map_eq_some_iff.mp h
      obtain ⟨size, rfl⟩ := Nat.exists_eq_add_of_lt hpos
      rw [Nat.zero_add] at hsize hlevel ⊢
      rw [List.getElem?_cons_succ] at hlevel
      have hrun := @ih size (by omega) (start + 1) _ rest (by omega) hrest hlevel
      rw [marksFrom_char hstart hquote, hrun, List.take_succ_cons, List.map_cons, Option.map_some,
        Option.map_some, Int.add_sub_cancel]

end Window

/-! ## The matching bracket -/

section Matching

variable {text : Text} {index : Nat} {base : Int} {found : List (Option Int)}

/-- Where the closing bracket of an open one stands, in a run of characters and whether each is in
a literal, with a number of other brackets opened since. -/
def matching (opened : Nat) : List (Char × Bool) → Option Nat
  | [] => none
  | (c, literal) :: rest =>
    if literal then (matching opened rest).map (· + 1)
    else if opening.contains c then (matching (opened + 1) rest).map (· + 1)
    else if closing.contains c then
      if opened = 0 then some 0 else (matching (opened - 1) rest).map (· + 1)
    else (matching opened rest).map (· + 1)

/-- Whether each character is in a literal. -/
def inLiteral (marks : List (Option Int)) : List Bool := marks.map Option.isNone

/-- The first closing bracket outside literals that closes a depth. -/
def closesAt (base : Int) (run : List (Char × Option Int)) : Option Nat :=
  run.findIdx? fun entry => closing.contains entry.1 && entry.2 = some base

theorem closesAt_skip {entry : Char × Option Int} {run : List (Char × Option Int)}
    (h : (closing.contains entry.1 && entry.2 = some base) = false) :
    closesAt base (entry :: run) = (closesAt base run).map (· + 1) := by
  unfold closesAt
  rw [List.findIdx?_cons, h]
  rfl

theorem closesAt_here {entry : Char × Option Int} {run : List (Char × Option Int)}
    (h : (closing.contains entry.1 && entry.2 = some base) = true) :
    closesAt base (entry :: run) = some 0 := by
  unfold closesAt
  rw [List.findIdx?_cons, h]
  rfl

theorem closesAt_spec {run : List (Char × Option Int)} {size : Nat}
    (h : closesAt base run = some size) :
    ∃ c, run[size]? = some (c, some base) ∧ closing.contains c := by
  obtain ⟨hlt, hcloses, -⟩ := List.findIdx?_eq_some_iff_getElem.mp h
  obtain ⟨hclosing, hmark⟩ := Bool.and_eq_true_iff.mp hcloses
  refine ⟨run[size].1, ?_, hclosing⟩
  rw [List.getElem?_eq_getElem hlt, ← of_decide_eq_true hmark]

theorem closesAt_literal (literals : Text) (run : List (Char × Option Int)) :
    closesAt base (literals.map (·, none) ++ run) =
      (closesAt base run).map (· + literals.length) := by
  induction literals with
  | nil => simp
  | cons c literals ih =>
    have hskip : (closing.contains c && (none : Option Int) = some base) = false := by simp
    rw [List.map_cons, List.cons_append, closesAt_skip hskip, ih, Option.map_map]
    rfl

theorem matching_literal (opened : Nat) (literals : Text) (rest : List (Char × Bool)) :
    matching opened (literals.map (·, true) ++ rest) =
      (matching opened rest).map (· + literals.length) := by
  induction literals with
  | nil => simp
  | cons c literals ih =>
    rw [List.map_cons, List.cons_append, matching, if_pos rfl, ih, Option.map_map]
    rfl

theorem zip_literal {α : Type} (literals rest : Text) (mark : α) (marks : List α) :
    (literals ++ rest).zip (List.replicate literals.length mark ++ marks) =
      literals.map (·, mark) ++ rest.zip marks := by
  induction literals with
  | nil => rfl
  | cons c literals ih => exact congrArg ((c, mark) :: ·) ih

/-- An opening bracket is nothing else to the scan, and ends a literal's prefix letters. -/
theorem opening_cases {c : Char} (h : opening.contains c) :
    closing.contains c = false ∧ (quotes.contains c || c = comment) = false ∧
      stringPrefixes.contains c = false ∧ isWord c = false := by
  have h : c ∈ opening := List.contains_iff_mem.mp h
  simp only [opening, List.mem_cons, List.not_mem_nil, or_false] at h
  obtain rfl | rfl | rfl := h <;> decide

/-- Brackets match by counting as they do by depth. -/
theorem matching_eq_closesAt {opened : Nat}
    (h : marksFrom text index (base + opened) = some found) :
    matching opened ((text.drop index).zip (inLiteral found)) =
      closesAt base ((text.drop index).zip found) := by
  induction hsize : text.length - index using Nat.strong_induction_on
    generalizing index opened found with
  | _ size ih =>
    rcases le_or_gt text.length index with hend | hindex
    · rw [List.drop_eq_nil_of_le hend]
      rfl
    cases hquote : quotes.contains text[index] || text[index] = comment with
    | true =>
      obtain ⟨stop, -, hlt, hle, hmarks⟩ := @marksFrom_literal _ _ (base + opened) hindex hquote
      rw [hmarks] at h
      obtain ⟨rest, hrest, rfl⟩ := Option.map_eq_some_iff.mp h
      obtain ⟨literals, hsplit, hlength⟩ : ∃ literals,
          text.drop index = literals ++ text.drop stop ∧ stop - index = literals.length := by
        refine ⟨(text.drop index).take (stop - index), ?_, ?_⟩
        · have hdrop := (List.take_append_drop (stop - index) (text.drop index)).symm
          rwa [List.drop_drop, Nat.add_sub_cancel' hlt.le] at hdrop
        · rw [List.length_take, List.length_drop]
          omega
      rw [hsplit, hlength, inLiteral, List.map_append, List.map_replicate, Option.isNone_none,
        zip_literal, zip_literal, closesAt_literal, matching_literal]
      exact congrArg _ (ih _ (by omega) hrest rfl)
    | false =>
      rw [marksFrom_char hindex hquote] at h
      obtain ⟨rest, hrest, rfl⟩ := Option.map_eq_some_iff.mp h
      rw [List.drop_eq_getElem_cons hindex, inLiteral, List.map_cons, List.zip_cons_cons,
        List.zip_cons_cons, Option.isNone_some, matching, if_neg Bool.false_ne_true]
      unfold levels at hrest ⊢
      by_cases hopening : opening.contains text[index]
      · rw [if_pos hopening] at hrest ⊢
        rw [Int.add_assoc] at hrest
        have hrun := @ih (text.length - (index + 1)) (by omega) (index + 1) rest (opened + 1) hrest
          rfl
        rw [if_pos hopening, closesAt_skip (by rw [(opening_cases hopening).1]; rfl)]
        exact congrArg _ hrun
      rw [if_neg hopening] at hrest ⊢
      rw [if_neg hopening]
      by_cases hclosing : closing.contains text[index]
      · rw [if_pos hclosing] at hrest ⊢
        rw [if_pos hclosing]
        cases opened with
        | zero =>
          have hhere : (closing.contains text[index] &&
              decide (some (base + ((0 : Nat) : Int)) = some base)) = true := by
            rw [hclosing, Int.natCast_zero, Int.add_zero, decide_eq_true rfl]
            rfl
          rw [if_pos rfl, closesAt_here hhere]
        | succ opened =>
          have hlevel : base + ((opened + 1 : Nat) : Int) - 1 = base + opened := by omega
          rw [hlevel] at hrest
          have hmark : some (base + ((opened + 1 : Nat) : Int)) ≠ some base := by
            rw [Ne, Option.some.injEq]
            omega
          have hskip : (closing.contains text[index] &&
              decide (some (base + ((opened + 1 : Nat) : Int)) = some base)) = false := by
            rw [decide_eq_false hmark, Bool.and_false]
          rw [if_neg (Nat.succ_ne_zero _), closesAt_skip hskip]
          exact congrArg _ (ih _ (by omega) hrest rfl)
      · rw [if_neg hclosing] at hrest ⊢
        have hskip : (closing.contains text[index] &&
            decide (some (base + (opened : Int)) = some base)) = false := by
          rw [Bool.eq_false_iff.mpr hclosing, Bool.false_and]
        rw [if_neg hclosing, closesAt_skip hskip]
        exact congrArg _ (ih _ (by omega) hrest rfl)

/-- The scan for the closing bracket looks at the text after the open one. -/
theorem find_closing {depths : List Int} (hbase : base ≠ insideString)
    (hdepths : depths = found.map fun mark => mark.getD insideString)
    (hlength : found.length = text.length) (hindex : index ≤ text.length) :
    ((List.range' index (text.length - index)).find? fun index =>
      text[index]?.any closing.contains && depths[index]? = some base) =
      (closesAt base ((text.drop index).zip (found.drop index))).map (index + ·) := by
  induction hsize : text.length - index generalizing index with
  | zero =>
    rw [List.drop_eq_nil_of_le (by omega)]
    rfl
  | succ size ih =>
    have htext : index < text.length := by omega
    have hfound : index < found.length := by omega
    have hlevel : (depths[index]? = some base) ↔ found[index] = some base := by
      rw [hdepths, List.getElem?_map, List.getElem?_eq_getElem hfound, Option.map_some,
        Option.some.injEq]
      cases found[index] with
      | none => exact iff_of_false hbase.symm (Option.some_ne_none base).symm
      | some level => exact Option.some.injEq _ _ ▸ Iff.rfl
    have hrest := ih htext (by omega)
    rw [List.range'_succ, List.find?_cons, List.getElem?_eq_getElem htext, Option.any_some,
      decide_eq_decide.mpr hlevel, hrest, List.drop_eq_getElem_cons htext,
      List.drop_eq_getElem_cons hfound, List.zip_cons_cons]
    cases hcloses : closing.contains text[index] && decide (found[index] = some base) with
    | true =>
      rw [closesAt_here hcloses]
      rfl
    | false =>
      rw [closesAt_skip hcloses, Option.map_map]
      have hsum : (index.succ + ·) = (index + ·) ∘ (· + 1) := by
        funext size
        exact Nat.succ_add_eq_add_succ index size
      exact congrArg (Option.map · _) hsum

theorem innerSpan_eq {depths : List Int} {offset : Nat} (hbase : base ≠ insideString)
    (hdepths : depths = found.map fun mark => mark.getD insideString)
    (hlength : found.length = text.length) (hmark : found[offset]? = some (some base)) :
    innerSpan text depths offset =
      (closesAt base ((text.drop (offset + 1)).zip (found.drop (offset + 1)))).map
        fun size => (text.drop (offset + 1)).take size := by
  have hoffset : offset < text.length := by
    obtain ⟨hlt, -⟩ := List.getElem?_eq_some_iff.mp hmark
    exact hlength ▸ hlt
  have hwanted : depths[offset]? = some base := by
    rw [hdepths, List.getElem?_map, hmark]
    rfl
  rw [innerSpan, hwanted, Option.bind_eq_bind, Option.bind_some, if_neg hbase,
    find_closing hbase hdepths hlength hoffset]
  cases closesAt base ((text.drop (offset + 1)).zip (found.drop (offset + 1))) with
  | none => rfl
  | some size =>
    have htake : (text.take (offset + 1 + size)).drop (offset + 1) =
        (text.drop (offset + 1)).take size := by
      rw [List.drop_take, Nat.add_sub_cancel_left]
    exact congrArg some htake

/-- After an opening bracket outside literals the scan stands at the depth inside it. -/
theorem marksFrom_opening {offset : Nat} {c : Char} (h : marks text = some found)
    (hc : text[offset]? = some c) (hopening : opening.contains c)
    (hmark : found[offset]? = some (some base)) :
    marksFrom text (offset + 1) base = some (found.drop (offset + 1)) := by
  obtain ⟨depth, hdrop⟩ := marksFrom_drop h hmark
  obtain ⟨hoffset, rfl⟩ := List.getElem?_eq_some_iff.mp hc
  rw [Nat.zero_add, marksFrom_char hoffset (opening_cases hopening).2.1, levels,
    if_pos hopening] at hdrop
  obtain ⟨rest, hrest, hcons⟩ := Option.map_eq_some_iff.mp hdrop
  rw [← List.head?_drop, ← hcons, List.head?_cons, Option.some.injEq, Option.some.injEq] at hmark
  have htail := congrArg List.tail hcons
  rw [List.tail_cons, List.tail_drop] at htail
  rw [← htail, ← hmark]
  exact hrest

/-- What an opening bracket holds up to the closing one is scanned alone as in the text. -/
theorem marks_inner {offset size : Nat} {c : Char} (h : marks text = some found)
    (hc : text[offset]? = some c) (hopening : opening.contains c)
    (hmark : found[offset]? = some (some base))
    (hsize : closesAt base ((text.drop (offset + 1)).zip (found.drop (offset + 1))) = some size) :
    ((text.drop (offset + 1)).take size).length = size ∧
      marks ((text.drop (offset + 1)).take size) =
        some (((found.drop (offset + 1)).take size).map (Option.map (· - base))) := by
  have hmarks := marksFrom_opening h hc hopening hmark
  obtain ⟨close, hclose, hclosing⟩ := closesAt_spec hsize
  rw [List.getElem?_zip_eq_some] at hclose
  obtain ⟨hclose, hlevel⟩ := hclose
  obtain ⟨hlt, hat⟩ := List.getElem?_eq_some_iff.mp hclose
  have hlength : ((text.drop (offset + 1)).take size).length = size :=
    List.length_take_of_le hlt.le
  refine ⟨hlength, ?_⟩
  obtain ⟨hoffset, rfl⟩ := List.getElem?_eq_some_iff.mp hc
  have hbefore : Fenced (text.take (offset + 1)) := by
    refine ⟨text[offset], ?_, (opening_cases hopening).2.2⟩
    rw [List.take_succ_eq_append_getElem hoffset, List.getLast?_concat]
  have hafter : Closed ((text.drop (offset + 1)).drop size) :=
    ⟨_, _, List.drop_eq_getElem_cons hlt, hat ▸ hclosing⟩
  have hwhole : text.take (offset + 1) ++ (text.drop (offset + 1)).take size ++
      (text.drop (offset + 1)).drop size = text := by
    rw [List.append_assoc, List.take_append_drop, List.take_append_drop]
  refine marksFrom_window hbefore hafter (hlength.trans (Nat.zero_add _).symm) ?_ hlevel
  rw [hwhole, List.length_take_of_le hoffset, Int.zero_add]
  exact hmarks

end Matching

/-! ## Commas -/

/-- The commas of a stretch are the same ones at its own depth 0. -/
theorem splitCommas_shift {base : Int} (hbase : base ≠ insideString) (part : Text)
    (run : List (Char × Option Int)) :
    splitCommas 0 part (run.map fun entry =>
        (entry.1, (entry.2.map (· - base)).getD insideString)) =
      splitCommas base part (run.map fun entry => (entry.1, entry.2.getD insideString)) := by
  induction run generalizing part with
  | nil => rfl
  | cons entry run ih =>
    obtain ⟨c, mark⟩ := entry
    have hlevel : (mark.map (· - base)).getD insideString = 0 ↔ mark.getD insideString = base := by
      cases mark with
      | none => exact iff_of_false (show insideString ≠ 0 by decide) hbase.symm
      | some level => exact Int.sub_eq_zero
    rw [List.map_cons, List.map_cons, splitCommas, splitCommas, ih, ih]
    exact if_congr (and_congr_right fun _ => hlevel) rfl rfl

/-- Scanning a text marks every character, and what an opening bracket outside literals holds up to
its matching closing bracket is marked and split alone as it is in the text, except below depth 0
where the depth inside the bracket reads as a literal. -/
theorem structure_compositional (text : Text) : ∃ found, marks text = some found ∧
    found.length = text.length ∧ ∃ depths, structure_ text = some depths ∧
      depths = (found.map fun mark => mark.getD insideString) ∧
      ∀ (offset : Nat) (c : Char) (base : Int), text[offset]? = some c → opening.contains c →
        found[offset]? = some (some base) →
        (base = insideString → innerSpan text depths offset = none) ∧
        (base ≠ insideString →
          innerSpan text depths offset =
            (matching 0 ((text.drop (offset + 1)).zip (inLiteral (found.drop (offset + 1))))).map
              fun size => (text.drop (offset + 1)).take size) ∧
        ∀ inner, innerSpan text depths offset = some inner →
          marks inner = some
            (((found.drop (offset + 1)).take inner.length).map (Option.map (· - base))) ∧
          splitTopLevel inner = some (splitCommas base []
            (inner.zip ((depths.drop (offset + 1)).take inner.length))) := by
  obtain ⟨found, hfound, hlength⟩ := exists_marksFrom text 0 0
  refine ⟨found, hfound, hlength, _, congrArg (Option.map _) hfound, rfl, ?_⟩
  intro offset c base hc hopening hmark
  have hmarks := marksFrom_opening hfound hc hopening hmark
  have hnone : base = insideString →
      innerSpan text (found.map fun mark => mark.getD insideString) offset = none := by
    intro hbase
    rw [innerSpan, List.getElem?_map, hmark]
    exact if_pos hbase
  refine ⟨hnone, ?_, ?_⟩
  · intro hbase
    have hnone_open : marksFrom text (offset + 1) (base + ((0 : Nat) : Int)) =
        some (found.drop (offset + 1)) := by
      rwa [Int.natCast_zero, Int.add_zero]
    rw [innerSpan_eq hbase rfl hlength hmark, matching_eq_closesAt hnone_open]
  · intro inner hinner
    have hbase : base ≠ insideString := fun hbase =>
      Option.some_ne_none inner (hinner.symm.trans (hnone hbase))
    rw [innerSpan_eq hbase rfl hlength hmark] at hinner
    obtain ⟨size, hsize, rfl⟩ := Option.map_eq_some_iff.mp hinner
    obtain ⟨hsize', halone⟩ := marks_inner hfound hc hopening hmark hsize
    rw [hsize']
    refine ⟨halone, ?_⟩
    rw [splitTopLevel, structure_, halone, Option.map_some, Option.map_some, Option.some.injEq,
      List.map_map, ← List.map_drop, ← List.map_take, List.zip_map_right, List.zip_map_right]
    exact splitCommas_shift hbase [] _

/-- Two closing brackets too many take the depth inside the next bracket to -1, and its text is
passed over as a literal's. -/
theorem innerSpan_below_zero :
    marks "))(x)".toList = some [some 0, some (-1), some (-1), some (-1), some (-1)] ∧
      structure_ "))(x)".toList = some [0, -1, -1, -1, -1] ∧
      matching 0 (("))(x)".toList.drop 3).zip (inLiteral [some (-1), some (-1)])) = some 1 ∧
      innerSpan "))(x)".toList [0, -1, -1, -1, -1] 2 = none := by
  have hmarks : marks "))(x)".toList =
      some [some 0, some (-1), some (-1), some (-1), some (-1)] := by
    unfold marks
    rw [marksFrom_char (by decide) (by decide), marksFrom_char (by decide) (by decide),
      marksFrom_char (by decide) (by decide), marksFrom_char (by decide) (by decide),
      marksFrom_char (by decide) (by decide), marksFrom_end (by decide)]
    decide
  refine ⟨hmarks, ?_, by decide, by decide⟩
  rw [structure_, hmarks]
  rfl

end Agentless.Patchcheck
