import Agentless.Library.Text

/-!
# First and last occurrences

Where a list is cut at the first occurrence of another one, or at the last occurrence of an element.
-/

namespace Agentless.Find

variable {α : Type} [DecidableEq α]

/-- What stands before and after the first occurrence of `cut`. -/
def splitOnce (cut : List α) : List α → Option (List α × List α)
  | [] => if cut = [] then some ([], []) else none
  | item :: items =>
    if cut.isPrefixOf (item :: items) then some ([], (item :: items).drop cut.length)
    else (splitOnce cut items).map fun (before, after) => (item :: before, after)

def contains (cut items : List α) : Bool := (splitOnce cut items).isSome

/-- What stands before and after the last occurrence of `cut`. -/
def rsplitOnce (cut : α) (items : List α) : Option (List α × List α) :=
  (splitOnce [cut] items.reverse).map fun (before, after) => (after.reverse, before.reverse)

theorem contains_append (start cut rest : List α) : contains cut (start ++ cut ++ rest) = true := by
  induction start with
  | nil =>
    rw [List.nil_append]
    cases hitems : cut ++ rest with
    | nil =>
      obtain ⟨rfl, rfl⟩ := List.append_eq_nil_iff.mp hitems
      rfl
    | cons item items =>
      have hpre : cut.isPrefixOf (item :: items) :=
        List.isPrefixOf_iff_prefix.mpr (hitems ▸ List.prefix_append _ _)
      rw [contains, splitOnce, if_pos hpre]
      rfl
  | cons item start ih =>
    unfold contains at ih ⊢
    rw [List.cons_append, List.cons_append, splitOnce]
    split_ifs
    · rfl
    · rw [Option.isSome_map, ih]

theorem splitOnce_append {cut before after : List α}
    (h : ∀ start rest, start ++ cut ++ rest = before ++ cut → rest = []) (hcut : cut ≠ []) :
    splitOnce cut (before ++ cut ++ after) = some (before, after) := by
  induction before with
  | nil =>
    cases cut with
    | nil => exact absurd rfl hcut
    | cons item cut =>
      have hpre : (item :: cut).isPrefixOf (item :: cut ++ after) :=
        List.isPrefixOf_iff_prefix.mpr (List.prefix_append _ _)
      rw [List.nil_append, List.cons_append, splitOnce, ← List.cons_append, if_pos hpre]
      simp
  | cons item before ih =>
    have hpre : ¬cut.isPrefixOf (item :: before ++ cut ++ after) := by
      intro hpre
      have hlonger : cut <+: item :: before ++ cut :=
        List.prefix_of_prefix_length_le (List.isPrefixOf_iff_prefix.mp hpre)
          (List.prefix_append _ _) (by simp; omega)
      obtain ⟨rest, hrest⟩ := hlonger
      have hnil : rest = [] := h [] rest (by simpa using hrest)
      have hlength := congrArg List.length hrest
      simp [hnil] at hlength
      omega
    rw [List.cons_append, List.cons_append, splitOnce, ← List.cons_append, ← List.cons_append,
      if_neg hpre, ih]
    · rfl
    · intro start rest hstart
      exact h (item :: start) rest (by simp [← hstart])

/-- The first occurrence of a doubled element, after a list that neither holds one nor ends in the
element. -/
theorem splitOnce_pair {item : α} {before after : List α} (h : contains [item, item] before = false)
    (hlast : before.getLast? ≠ some item) :
    splitOnce [item, item] (before ++ [item, item] ++ after) = some (before, after) := by
  refine splitOnce_append (fun start rest hstart => ?_) (List.cons_ne_nil _ _)
  rcases rest.eq_nil_or_concat with rfl | ⟨rest, last, rfl⟩
  · rfl
  have hinit := congrArg List.dropLast hstart
  rw [List.concat_eq_append, ← List.append_assoc, List.dropLast_concat,
    List.append_cons before item [item], List.dropLast_concat] at hinit
  rcases rest.eq_nil_or_concat with rfl | ⟨rest, other, rfl⟩
  · rw [List.append_nil, List.append_cons, List.append_left_inj] at hinit
    exact absurd (by simp [← hinit]) hlast
  · have hbefore := congrArg List.dropLast hinit
    rw [List.concat_eq_append, ← List.append_assoc, List.dropLast_concat, List.dropLast_concat]
      at hbefore
    rw [← hbefore, contains_append] at h
    cases h

theorem splitOnce_singleton {cut : α} {before after : List α} (h : cut ∉ before) :
    splitOnce [cut] (before ++ cut :: after) = some (before, after) := by
  rw [List.append_cons]
  refine splitOnce_append (fun start rest hstart => ?_) (List.cons_ne_nil _ _)
  rcases rest.eq_nil_or_concat with rfl | ⟨rest, last, rfl⟩
  · rfl
  · have hmem : cut ∈ start ++ [cut] ++ rest := by simp
    have hbefore : start ++ [cut] ++ rest = before := by
      have hinit := congrArg List.dropLast hstart
      rwa [List.concat_eq_append, ← List.append_assoc, List.dropLast_concat, List.dropLast_concat]
        at hinit
    exact absurd (hbefore ▸ hmem) h

theorem splitOnce_singleton_eq_none {cut : α} {items : List α} (h : cut ∉ items) :
    splitOnce [cut] items = none := by
  induction items with
  | nil => rfl
  | cons item items ih =>
    obtain ⟨hitem, hitems⟩ := not_or.mp (List.mem_cons.not.mp h)
    rw [splitOnce, if_neg (by simp [List.isPrefixOf, hitem]), ih hitems]
    rfl

theorem rsplitOnce_append {cut : α} {before after : List α} (h : cut ∉ after) :
    rsplitOnce cut (before ++ cut :: after) = some (before, after) := by
  have hreverse : (before ++ cut :: after).reverse = after.reverse ++ cut :: before.reverse := by simp
  rw [rsplitOnce, hreverse, splitOnce_singleton (by simpa using h)]
  simp

theorem rsplitOnce_eq_none {cut : α} {items : List α} (h : cut ∉ items) :
    rsplitOnce cut items = none := by
  rw [rsplitOnce, splitOnce_singleton_eq_none (by simpa using h)]
  rfl

/-- Either the element does not occur, or what follows its last occurrence is free of it. -/
theorem rsplitOnce_cases (cut : α) (items : List α) :
    (cut ∉ items ∧ rsplitOnce cut items = none) ∨
      ∃ before after, items = before ++ cut :: after ∧ cut ∉ after ∧
        rsplitOnce cut items = some (before, after) := by
  by_cases h : cut ∈ items
  · obtain ⟨after, before, hitems, hafter⟩ := List.eq_append_cons_of_mem (List.mem_reverse.mpr h)
    have hsplit : items = before.reverse ++ cut :: after.reverse := by
      rw [← List.reverse_reverse items, hitems]
      simp
    refine .inr ⟨before.reverse, after.reverse, hsplit, by simpa using hafter, ?_⟩
    rw [hsplit]
    exact rsplitOnce_append (by simpa using hafter)
  · exact .inl ⟨h, rsplitOnce_eq_none h⟩

/-! ## All pieces between occurrences -/

/-- The pieces of `items` between the occurrences of `cut`, from the left and not overlapping, as
`str::split` gives them. -/
def splitAll (cut : List α) (items : List α) : List (List α) :=
  go [] 0 items
where
  -- `piece` is what stands since the last occurrence, `skip` what is left of that occurrence
  go (piece : List α) : Nat → List α → List (List α)
    | _, [] => [piece]
    | skip + 1, _ :: items => go piece skip items
    | 0, item :: items =>
      if cut.isPrefixOf (item :: items) then piece :: go [] (cut.length - 1) items
      else go (piece ++ [item]) 0 items

theorem splitAll_go_skip (cut piece : List α) (skip : Nat) (items : List α) :
    splitAll.go cut piece skip items = splitAll.go cut piece 0 (items.drop skip) := by
  induction skip generalizing items with
  | zero => rfl
  | succ skip ih =>
    cases items with
    | nil => rfl
    | cons item items => exact ih items

theorem splitAll_go {cut : List α} (hcut : cut ≠ []) (piece items : List α) :
    splitAll.go cut piece 0 items = match splitOnce cut items with
      | none => [piece ++ items]
      | some (before, after) => (piece ++ before) :: splitAll cut after := by
  induction items generalizing piece with
  | nil => simp [splitAll.go, splitOnce, hcut]
  | cons item items ih =>
    unfold splitAll.go splitOnce
    split_ifs with hpre
    · obtain ⟨first, cut, rfl⟩ := List.exists_cons_of_ne_nil hcut
      simp [splitAll_go_skip, splitAll]
    · rw [ih]
      cases splitOnce cut items with
      | none => simp
      | some found => simp

theorem splitAll_eq {cut : List α} (hcut : cut ≠ []) (items : List α) :
    splitAll cut items = match splitOnce cut items with
      | none => [items]
      | some (before, after) => before :: splitAll cut after := splitAll_go hcut [] items

omit [DecidableEq α] in
/-- An item that is not in a list parts the places where the list can stand. -/
theorem infix_append_cons {cut before after : List α} {item : α} (hitem : item ∉ cut)
    (h : cut <:+: before ++ item :: after) : cut <:+: before ∨ cut <:+: after := by
  obtain ⟨start, rest, heq⟩ := h
  obtain ⟨middle, hbefore, hrest⟩ | ⟨middle, hcut, hrest⟩ := List.append_eq_append_iff.mp heq
  · exact .inl ⟨start, middle, hbefore.symm⟩
  · cases middle with
    | nil => exact .inl ⟨start, [], by simpa using hcut⟩
    | cons first middle =>
      obtain ⟨rfl, hafter⟩ := List.cons.inj hrest
      obtain ⟨middle', hstart, hcut'⟩ | ⟨middle', hbefore, hcut'⟩ := List.append_eq_append_iff.mp hcut
      · rw [hcut'] at hitem
        simp at hitem
      · cases middle' with
        | nil =>
          rw [List.nil_append] at hcut'
          rw [← hcut'] at hitem
          simp at hitem
        | cons next middle' =>
          obtain ⟨rfl, hmiddle⟩ := List.cons.inj hcut'
          exact .inr ⟨middle', rest, by simp [hafter, hmiddle]⟩

/-- A piece that does not hold the cut, nor ends with an item of it, ends where the cut stands. -/
theorem splitOnce_of_free {cut before : List α} (hcut : cut ≠ []) (hfree : ¬ cut <:+: before)
    (hlast : ∀ item, before.getLast? = some item → item ∉ cut) (after : List α) :
    splitOnce cut (before ++ cut ++ after) = some (before, after) := by
  refine splitOnce_append (fun start rest heq => ?_) hcut
  by_contra hrest
  have hlength := congrArg List.length heq
  have hpos := List.length_pos_iff.mpr hrest
  simp only [List.length_append] at hlength
  rw [List.append_assoc] at heq
  obtain ⟨middle, rfl, hmiddle⟩ | ⟨middle, rfl, -⟩ := List.append_eq_append_iff.mp heq
  · obtain ⟨extra, rfl, -⟩ | ⟨extra, hcut', -⟩ := List.append_eq_append_iff.mp hmiddle
    · exact hfree ⟨start, extra, by simp⟩
    · -- the piece would end with an item of the cut
      obtain rfl | ⟨items, item, rfl⟩ := List.eq_nil_or_concat' middle
      · rw [List.append_nil] at hlength
        omega
      · refine hlast item (by simp) ?_
        rw [hcut']
        simp
  · simp only [List.length_append] at hlength
    omega

/-- A text that starts with such a piece and the cut is split there. -/
theorem splitAll_of_free {cut before : List α} (hcut : cut ≠ []) (hfree : ¬ cut <:+: before)
    (hlast : ∀ item, before.getLast? = some item → item ∉ cut) (after : List α) :
    splitAll cut (before ++ cut ++ after) = before :: splitAll cut after := by
  rw [splitAll_eq hcut, splitOnce_of_free hcut hfree hlast]

theorem splitOnce_eq_none {cut items : List α} (hcut : cut ≠ []) (h : ¬ cut <:+: items) :
    splitOnce cut items = none := by
  induction items with
  | nil => simp [splitOnce, hcut]
  | cons item items ih =>
    unfold splitOnce
    rw [if_neg, ih]
    · rfl
    · exact fun hinside => h (hinside.trans (List.suffix_cons item items).isInfix)
    · exact fun hpre => h (List.isPrefixOf_iff_prefix.mp hpre).isInfix

theorem splitAll_eq_singleton {cut items : List α} (hcut : cut ≠ []) (h : ¬ cut <:+: items) :
    splitAll cut items = [items] := by
  rw [splitAll_eq hcut, splitOnce_eq_none hcut h]

end Agentless.Find
