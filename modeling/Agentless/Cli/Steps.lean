import Agentless.Cli.Consume

/-!
# Single steps of a parse

What each function of the parse needs so that it stays in range, and what it leaves: the readings
that an argument is given, the state of an action that takes its values, and an option's own
arguments.
-/

namespace Agentless.Cli

variable {β ω σ : Type} {setup : Setup β ω σ} {parser : Parser β ω}

/-! ## Readings -/

/-- The action is an option of the parser. -/
def Parser.Names (parser : Parser β ω) (index : Nat) : Prop :=
  ∃ action, parser.actions[index]? = some action ∧ action.strings ≠ []

theorem names_of_mem {index : Nat} {text : Text} (h : (index, text) ∈ parser.optionStrings) :
    parser.Names index := by
  obtain ⟨⟨action, place⟩, hmem, hentry⟩ := List.mem_flatMap.mp h
  obtain ⟨string, hstring, hpair⟩ := List.mem_map.mp hentry
  obtain ⟨rfl, rfl⟩ := Prod.mk.inj hpair
  refine ⟨action, ?_, List.ne_nil_of_mem hstring⟩
  exact List.mem_zipIdx_iff_getElem?.mp hmem

theorem names_of_option {index : Nat} {text : Text} (h : parser.option text = some index) :
    parser.Names index := by
  obtain ⟨entry, hentry, rfl⟩ := Option.map_eq_some_iff.mp h
  exact names_of_mem (List.mem_of_find?_eq_some hentry)

/-- Every action that the readings name is an option. -/
def Readings (parser : Parser β ω) (tuples : List Tuple) : Prop :=
  tuples ≠ [] ∧ ∀ tuple ∈ tuples, ∀ index, tuple.action = some index → parser.Names index

theorem readings_singleton {tuple : Tuple}
    (h : ∀ index, tuple.action = some index → parser.Names index) : Readings parser [tuple] :=
  ⟨List.cons_ne_nil _ _, List.forall_mem_singleton.mpr h⟩

theorem names_of_prefixed {arg : Arg} {tuple : Tuple} (h : tuple ∈ prefixed setup parser arg)
    {index : Nat} (hindex : tuple.action = some index) : parser.Names index := by
  unfold prefixed at h
  dsimp only at h
  split_ifs at h
  · obtain ⟨⟨i, s⟩, hmem, rfl⟩ := List.mem_map.mp h
    cases hindex
    exact names_of_mem (List.mem_of_mem_filter hmem)
  · obtain ⟨⟨i, s⟩, hmem, htuple⟩ := List.mem_filterMap.mp h
    dsimp only at htuple
    split_ifs at htuple
    · cases htuple
      cases hindex
      exact names_of_mem hmem
    · cases htuple
      cases hindex
      exact names_of_mem hmem

theorem readings_optional {arg : Arg} {tuples : List Tuple}
    (h : optional setup parser arg = some tuples) : Readings parser tuples := by
  unfold optional at h
  by_cases hdash : arg.text.head? ≠ some '-'
  · rw [if_pos hdash] at h
    cases h
  rw [if_neg hdash] at h
  split at h
  · next action haction =>
    cases h
    exact readings_singleton fun index hindex => names_of_option (haction.trans hindex)
  by_cases hsize : arg.text.length = 1
  · rw [if_pos hsize] at h
    cases h
  rw [if_neg hsize] at h
  split at h
  · next name action hname =>
    cases h
    obtain ⟨⟨before, after⟩, -, hbefore⟩ := Option.bind_eq_some_iff.mp hname
    obtain ⟨found, hfound, hpair⟩ := Option.map_eq_some_iff.mp hbefore
    cases hpair
    exact readings_singleton fun index hindex => names_of_option (hfound.trans hindex)
  · split_ifs at h with hne
    · cases h
      exact ⟨hne, fun tuple hmem index => names_of_prefixed hmem⟩
    · cases h
      exact readings_singleton fun index hindex => nomatch hindex

/-! ## Classification -/

def separatorText : Text := "--".toList

/-- The pattern has a letter for each argument, the options stand at its option letters, and its
separator is the first `--`. -/
structure Classified.Sound (parser : Parser β ω) (args : List Arg) (found : Classified) : Prop where
  length : found.pattern.length = args.length
  options : ∀ entry ∈ found.options,
    found.pattern[entry.1]? = some .option ∧ Readings parser entry.2
  separator : ∀ place, found.pattern[place]? = some .separator →
    (args[place]?.map Arg.text = some separatorText) ∧
      ∀ arg ∈ args.take place, arg.text ≠ separatorText
  free : .separator ∉ found.pattern → ∀ arg ∈ args, arg.text ≠ separatorText

theorem Classified.Sound.add {args : List Arg} {found : Classified} (h : found.Sound parser args)
    {arg : Arg} {letter : Letter} {added : List (Nat × List Tuple)}
    (hadded : ∀ entry ∈ added,
      entry.1 = found.pattern.length ∧ letter = .option ∧ Readings parser entry.2)
    (hseparator : letter = .separator → .separator ∉ found.pattern ∧ arg.text = separatorText)
    (hfree : .separator ∉ found.pattern → letter ≠ .separator → arg.text ≠ separatorText) :
    Classified.Sound parser (args ++ [arg])
      ⟨found.pattern ++ [letter], found.options ++ added⟩ := by
  constructor
  · rw [List.length_append, List.length_append, h.length]
    rfl
  · intro entry hentry
    obtain hold | hnew := List.mem_append.mp hentry
    · obtain ⟨hletter, hreadings⟩ := h.options entry hold
      obtain ⟨hlt, -⟩ := List.getElem?_eq_some_iff.mp hletter
      exact ⟨by rw [List.getElem?_append_left hlt, hletter], hreadings⟩
    · obtain ⟨hplace, rfl, hreadings⟩ := hadded entry hnew
      exact ⟨by rw [hplace, List.getElem?_concat_length], hreadings⟩
  · intro place hplace
    rcases lt_trichotomy place found.pattern.length with hlt | rfl | hgt
    · rw [List.getElem?_append_left hlt] at hplace
      obtain ⟨htext, hbefore⟩ := h.separator place hplace
      rw [h.length] at hlt
      rw [List.getElem?_append_left hlt, List.take_append_of_le_length hlt.le]
      exact ⟨htext, hbefore⟩
    · rw [List.getElem?_concat_length, Option.some.injEq] at hplace
      obtain ⟨hnone, htext⟩ := hseparator hplace
      rw [h.length, List.getElem?_concat_length, List.take_left]
      exact ⟨congrArg some htext, h.free hnone⟩
    · rw [List.getElem?_eq_none (by rw [List.length_append]; exact hgt)] at hplace
      cases hplace
  · intro hnone
    have hpattern : .separator ∉ found.pattern := fun hmem => hnone (List.mem_append_left _ hmem)
    have hletter : letter ≠ .separator := by
      rintro rfl
      exact hnone (List.mem_append_right _ List.mem_cons_self)
    rw [List.forall_mem_append, List.forall_mem_singleton]
    exact ⟨h.free hpattern, hfree hpattern hletter⟩

theorem classify_sound (args : List Arg) :
    (classify setup parser args).Sound parser args := by
  induction args using List.reverseRecOn with
  | nil =>
    refine ⟨rfl, List.forall_mem_nil _, ?_, fun _ => List.forall_mem_nil _⟩
    intro place hplace
    cases hplace
  | append_singleton args arg ih =>
    rw [classify, List.foldl_append, List.foldl_cons, List.foldl_nil]
    change (Classified.add setup parser (classify setup parser args) arg).Sound parser _
    generalize classify setup parser args = found at ih
    unfold Classified.add
    split_ifs with hseparator htext
    · have hadd := @Classified.Sound.add _ _ _ _ _ ih arg .value [] (List.forall_mem_nil _)
        (fun hletter => nomatch hletter) fun hnone => absurd hseparator hnone
      rwa [List.append_nil] at hadd
    · have hadd := @Classified.Sound.add _ _ _ _ _ ih arg .separator [] (List.forall_mem_nil _)
        (fun _ => ⟨hseparator, htext⟩) fun _ hletter => absurd rfl hletter
      rwa [List.append_nil] at hadd
    · split
      · next tuples htuples =>
        exact ih.add (List.forall_mem_singleton.mpr ⟨rfl, rfl, readings_optional htuples⟩)
          (fun hletter => nomatch hletter) fun _ _ => htext
      · have hadd := @Classified.Sound.add _ _ _ _ _ ih arg .value [] (List.forall_mem_nil _)
          (fun hletter => nomatch hletter) fun _ _ => htext
        rwa [List.append_nil] at hadd

/-! ## Actions -/

/-- The values that an action takes when it is used: one to convert, or a command's name. -/
structure Takes (parser : Parser β ω) (index : Nat) (values : List Arg) : Prop where
  declared : index < parser.actions.length
  filled : (parser.actions[index].kind.takesValue ∨
    parser.actions[index].kind.commands?.isSome) → values ≠ []

/-- There is a mark for each action of the parser. -/
def Results.Sized (parser : Parser β ω) (results : Results ω σ) : Prop :=
  results.seen.length = parser.actions.length ∧ results.used.length = parser.actions.length

section TakeAction

variable {parseSub : Parser β ω → List Arg → σ → Attempt Exit (Known ω × σ)} {index : Nat}
  {values : List Arg} {results : Results ω σ}

open Attempt

theorem ends_actionError {α : Type} {property : α → Prop} (h : index < parser.actions.length)
    (message : Text) : Ends (actionError setup parser index message) property := by
  rw [actionError, read_bind (List.getElem?_eq_getElem h)]
  exact ends_throw _

theorem ends_checkChoice (h : index < parser.actions.length) (text : Text) (choices : List Text)
    (value : Value) :
    Ends (checkChoice setup parser index text choices value) fun _ => True := by
  unfold checkChoice
  split_ifs
  · exact ends_pure trivial
  · exact ends_actionError h _

theorem ends_convert (h : Takes parser index values) (state : σ) :
    Ends (convert setup parser index values state) fun _ => True := by
  rw [convert, read_bind (List.getElem?_eq_getElem h.declared)]
  split
  · exact ends_pure trivial
  · exact ends_pure trivial
  · exact ends_pure trivial
  · exact ends_pure trivial
  · next hkind =>
    have hfilled := h.filled (.inl (by rw [hkind]; rfl))
    rw [read_bind (List.getElem?_eq_getElem (List.length_pos_of_ne_nil hfilled))]
    split
    · exact ends_actionError h.declared _
    · split
      · exact ends_actionError h.declared _
      · exact (ends_checkChoice h.declared _ _ _).bind fun _ _ => ends_pure trivial
  · next hkind =>
    have hfilled := h.filled (.inr (by rw [hkind]; rfl))
    rw [read_bind (List.getElem?_eq_getElem (List.length_pos_of_ne_nil hfilled))]
    exact (ends_checkChoice h.declared _ _ _).bind fun _ _ => ends_pure trivial

theorem exists_firstUsed {used : List Bool} {others : List Nat}
    (h : ∀ other ∈ others, other < used.length) :
    ∃ found, firstUsed used others = some found ∧ ∀ other ∈ found, other ∈ others := by
  induction others with
  | nil => exact ⟨none, rfl, fun _ hother => nomatch hother⟩
  | cons other others ih =>
    obtain ⟨hother, hothers⟩ := List.forall_mem_cons.mp h
    obtain ⟨found, hfound, hmem⟩ := ih hothers
    rw [firstUsed, List.getElem?_eq_getElem hother, Option.bind_eq_bind, Option.bind_some]
    split_ifs
    · exact ⟨some other, rfl, fun _ hsome => Option.some.inj hsome ▸ List.mem_cons_self⟩
    · exact ⟨found, hfound, fun found hsome => List.mem_cons_of_mem _ (hmem found hsome)⟩

theorem lt_of_mem_conflicts {other : Nat} (h : other ∈ parser.conflicts index) :
    other < parser.actions.length := by
  have hmem := List.mem_of_mem_filter h
  cases hgroup : parser.group with
  | none => rw [hgroup] at hmem; cases hmem
  | some group =>
    rw [hgroup] at hmem
    have hbounds := List.mem_range'_1.mp hmem
    have hle := parser.grouped group hgroup
    omega

theorem ends_use {used : List Bool} (hindex : index < parser.actions.length)
    (hused : used.length = parser.actions.length) :
    Ends (use setup parser index values used) fun after =>
      after.length = parser.actions.length := by
  rw [use, read_bind (List.getElem?_eq_getElem hindex)]
  split_ifs
  · have hset : List.set? used index true = some (used.set index true) := if_pos (hused ▸ hindex)
    have hlength : (used.set index true).length = parser.actions.length := by
      rw [List.length_set, hused]
    obtain ⟨found, hfound, hmem⟩ := @exists_firstUsed (used.set index true)
      (parser.conflicts index) fun other hother => hlength.symm ▸ lt_of_mem_conflicts hother
    rw [read_bind hset, read_bind hfound]
    cases found with
    | none => exact ends_pure hlength
    | some other =>
      have hother := lt_of_mem_conflicts (hmem other rfl)
      dsimp only
      rw [read_bind (List.getElem?_eq_getElem hother)]
      exact ends_actionError hindex _
  · exact ends_pure hused

theorem ends_choose (hvalues : values ≠ [])
    (hsub : ∀ parser rest state, rest.length < values.length →
      Ends (parseSub parser rest state) fun _ => True)
    (hresults : results.Sized parser) (commands : List (Command β ω)) :
    Ends (choose setup parseSub commands values results) fun after => after.Sized parser := by
  have hpos := List.length_pos_of_ne_nil hvalues
  rw [choose, read_bind (List.getElem?_eq_getElem hpos)]
  split
  · exact ends_pure hresults
  · rw [read_bind (slice?_eq_some (by omega) (le_refl _))]
    refine (hsub _ _ _ ?_).bind fun _ _ => ends_pure hresults
    rw [slice_length, List.length_drop]
    omega

/-- An action that takes its values stays in range, given that the parse of fewer arguments does. -/
theorem ends_takeAction (h : Takes parser index values)
    (hsub : ∀ parser rest state, rest.length < values.length →
      Ends (parseSub parser rest state) fun _ => True)
    (hresults : results.Sized parser) :
    Ends (takeAction setup parser parseSub index values results) fun after =>
      after.Sized parser := by
  have hseen : List.set? results.seen index true = some (results.seen.set index true) :=
    if_pos (hresults.1.symm ▸ h.declared)
  rw [takeAction, read_bind hseen]
  refine (ends_convert h results.state).bind fun converted _ => ?_
  refine (ends_use h.declared hresults.2).bind fun used hused => ?_
  rw [read_bind (List.getElem?_eq_getElem h.declared)]
  have hsized : (({ results with
      seen := results.seen.set index true, used := used, state := converted.2 } :
        Results ω σ)).Sized parser :=
    ⟨List.length_set.trans hresults.1, hused⟩
  split
  · exact ends_throw _
  · exact ends_throw _
  · next hkind => exact ends_choose (h.filled (.inr (by rw [hkind]; rfl))) hsub hsized _
  · exact ends_pure hsized
  · exact ends_pure hsized
  · exact ends_pure hsized

end TakeAction

/-! ## Options -/

/-- What the reading of the option at `start` stands for: the actions that it names with their
values, whether the last one takes the argument after it, and the letters that name no option. -/
inductive Named (setup : Setup β ω σ) (parser : Parser β ω) (args : List Arg)
    (pattern : List Letter) (start : Nat) :
    Tuple → List (Nat × List Arg) → Bool → Option Text → Prop where
  | flag {reading : Tuple} {index : Nat} (haction : reading.action = some index)
    (hexplicit : reading.explicit = none) (hflag : takesValue parser index = some false) :
    Named setup parser args pattern start reading [(index, [])] false none
  | next {reading : Tuple} {index : Nat} {arg : Arg} (haction : reading.action = some index)
    (hexplicit : reading.explicit = none) (hvalue : takesValue parser index = some true)
    (hletter : pattern[start + 1]? = some .value) (harg : args[start + 1]? = some arg) :
    Named setup parser args pattern start reading [(index, [arg])] true none
  | written {reading : Tuple} {index : Nat} {value : Arg} (haction : reading.action = some index)
    (hexplicit : reading.explicit = some value) (hvalue : takesValue parser index = some true) :
    Named setup parser args pattern start reading [(index, [value])] false none
  | unread {reading : Tuple} {index : Nat} {value : Arg} (haction : reading.action = some index)
    (hexplicit : reading.explicit = some value) (hflag : takesValue parser index = some false)
    (hshort : (nextShort setup parser index reading value).run = some (.ok none)) :
    Named setup parser args pattern start reading [(index, [])] false (some ('-' :: value.text))
  | cluster {reading next : Tuple} {index : Nat} {value : Arg} {actions : List (Nat × List Arg)}
    {valued : Bool} {rest : Option Text} (haction : reading.action = some index)
    (hexplicit : reading.explicit = some value) (hflag : takesValue parser index = some false)
    (hshort : (nextShort setup parser index reading value).run = some (.ok (some next)))
    (hnext : Named setup parser args pattern start next actions valued rest) :
    Named setup parser args pattern start reading ((index, []) :: actions) valued rest

section Options

variable {args : List Arg} {pattern : List Letter} {start index : Nat} {reading : Tuple}

open Attempt

theorem takesValue_eq (h : index < parser.actions.length) :
    takesValue parser index = some parser.actions[index].kind.takesValue := by
  rw [takesValue, List.getElem?_eq_getElem h]
  rfl

theorem Parser.Names.lt (h : parser.Names index) : index < parser.actions.length := by
  obtain ⟨action, haction, -⟩ := h
  exact (List.getElem?_eq_some_iff.mp haction).1

/-- An option takes values as its kind says. -/
theorem Parser.Names.takes {values : List Arg} (h : parser.Names index)
    (hvalues : takesValue parser index = some true → values ≠ []) : Takes parser index values := by
  refine ⟨h.lt, fun hkind => hvalues ?_⟩
  obtain ⟨action, haction, hstrings⟩ := h
  obtain ⟨hlt, rfl⟩ := List.getElem?_eq_some_iff.mp haction
  rw [takesValue_eq hlt]
  obtain hvalue | hcommands := hkind
  · exact congrArg some hvalue
  · obtain ⟨commands, hkind⟩ := Option.isSome_iff_exists.mp hcommands
    have hnamed := parser.actions[index].named hstrings commands
    exact absurd (Kind.commands?_eq_some.mp hkind) hnamed

theorem names_of_nextShort {value : Arg} {next : Tuple}
    (h : (nextShort setup parser index reading value).run = some (.ok (some next))) :
    (∃ named, next.action = some named ∧ parser.Names named) ∧
      roundsOf next ≤ value.text.length := by
  unfold nextShort at h
  split_ifs at h with hlong
  · obtain ⟨action, -, hthrow⟩ := run_bind_eq_ok_iff.mp h
    cases hthrow
  · dsimp only at h
    split at h
    · cases h
    · next named hoption =>
      cases h
      have hnames := names_of_option hoption
      obtain ⟨-, hne, -⟩ := not_or.mp hlong |>.imp_right not_or.mp
      have hpos := List.length_pos_of_ne_nil hne
      split_ifs with hrest hequals
      · exact ⟨⟨named, rfl, hnames⟩, hpos⟩
      · refine ⟨⟨named, rfl, hnames⟩, ?_⟩
        simp only [roundsOf, Option.map_some, Option.getD_some, Arg.text_new_utf8, List.length_drop]
        omega
      · refine ⟨⟨named, rfl, hnames⟩, ?_⟩
        simp only [roundsOf, Option.map_some, Option.getD_some, Arg.text_new_utf8, List.length_drop]
        omega

theorem Named.takes {actions : List (Nat × List Arg)} {valued : Bool} {rest : Option Text}
    (h : Named setup parser args pattern start reading actions valued rest)
    (hreading : ∀ index, reading.action = some index → parser.Names index) :
    ∀ entry ∈ actions, parser.Names entry.1 ∧ Takes parser entry.1 entry.2 := by
  have flag : ∀ {index : Nat}, parser.Names index → takesValue parser index = some false →
      parser.Names index ∧ Takes parser index [] := fun hnames hflag =>
    ⟨hnames, hnames.takes fun hvalue => absurd (hflag.symm.trans hvalue) (by decide)⟩
  induction h with
  | flag haction _ hflag => exact List.forall_mem_singleton.mpr (flag (hreading _ haction) hflag)
  | next haction | written haction =>
    have hnames := hreading _ haction
    exact List.forall_mem_singleton.mpr ⟨hnames, hnames.takes fun _ => List.cons_ne_nil _ _⟩
  | unread haction _ hflag =>
    exact List.forall_mem_singleton.mpr (flag (hreading _ haction) hflag)
  | cluster haction _ hflag hshort _ ih =>
    refine List.forall_mem_cons.mpr ⟨flag (hreading _ haction) hflag, ih ?_⟩
    obtain ⟨⟨named, hnamed, hnames⟩, -⟩ := names_of_nextShort hshort
    intro index hindex
    rwa [← Option.some.inj (hnamed.symm.trans hindex)]

theorem Named.length_le {actions : List (Nat × List Arg)} {valued : Bool} {rest : Option Text}
    (h : Named setup parser args pattern start reading actions valued rest) :
    ∀ entry ∈ actions, entry.2.length ≤ 1 := by
  induction h with
  | flag | unread => exact List.forall_mem_singleton.mpr (Nat.zero_le 1)
  | next | written => exact List.forall_mem_singleton.mpr (le_refl 1)
  | cluster _ _ _ _ _ ih => exact List.forall_mem_cons.mpr ⟨Nat.zero_le 1, ih⟩

/-- The argument after an option that takes one is there. -/
theorem Named.room {actions : List (Nat × List Arg)} {valued : Bool} {rest : Option Text}
    (h : Named setup parser args pattern start reading actions valued rest)
    (hstart : start < args.length) : start + 1 + valued.toNat ≤ args.length := by
  induction h with
  | flag | written | unread => exact hstart
  | next _ _ _ _ harg => exact (List.getElem?_eq_some_iff.mp harg).1
  | cluster _ _ _ _ _ ih => exact ih

theorem ends_nextShort {value : Arg} (hindex : index < parser.actions.length) :
    Ends (nextShort setup parser index reading value) fun _ => True := by
  unfold nextShort
  split_ifs
  · exact ends_actionError hindex _
  · dsimp only
    split
    · exact ends_pure trivial
    · exact ends_pure trivial

theorem ends_matchArgument (hindex : index < parser.actions.length) :
    Ends (matchArgument setup parser pattern index start) fun count =>
      (takesValue parser index = some false ∧ count = 0) ∨
        (takesValue parser index = some true ∧ pattern[start]? = some .value ∧ count = 1) := by
  rw [matchArgument, read_bind (takesValue_eq hindex), takesValue_eq hindex]
  split_ifs with hvalue hletter
  · exact ends_pure (.inr ⟨congrArg some hvalue, hletter, rfl⟩)
  · exact ends_actionError hindex _
  · exact ends_pure (.inl ⟨congrArg some (Bool.eq_false_iff.mpr hvalue), rfl⟩)

theorem ends_matchOptional (hlength : pattern.length = args.length) (hstart : start < args.length)
    (hreading : ∀ index, reading.action = some index → parser.Names index) {fuel : Nat}
    (hfuel : roundsOf reading ≤ fuel) (taken : Taken) :
    Ends (matchOptional setup parser args pattern start fuel reading taken) fun after =>
      (reading.action = none ∧ after = { taken with
          stop := start + 1
          extras := taken.extras ++ [args[start].text] }) ∨
        ∃ actions valued rest, Named setup parser args pattern start reading actions valued rest ∧
          after = ⟨taken.actions ++ actions, start + 1 + valued.toNat,
            taken.extras ++ rest.toList⟩ := by
  induction fuel generalizing reading taken with
  | zero => exact absurd hfuel (Nat.not_succ_le_zero _)
  | succ fuel ih =>
    unfold matchOptional
    split
    · next haction =>
      rw [read_bind (List.getElem?_eq_getElem hstart)]
      exact ends_pure (.inl ⟨haction, rfl⟩)
    · next index haction =>
      have hnames := hreading index haction
      split
      · next hexplicit =>
        refine (ends_matchArgument hnames.lt).bind fun count hcount => ?_
        obtain ⟨hflag, rfl⟩ | ⟨hvalue, hletter, rfl⟩ := hcount
        · rw [read_bind (slice?_eq_some (Nat.le_refl _) hstart), Nat.add_zero, slice_self]
          refine ends_pure (.inr ⟨_, _, _, .flag haction hexplicit hflag, ?_⟩)
          rw [Bool.toNat_false, Nat.add_zero, Option.toList_none, List.append_nil]
        · obtain ⟨hnext, -⟩ := List.getElem?_eq_some_iff.mp hletter
          rw [hlength] at hnext
          have harg := List.getElem?_eq_getElem hnext
          rw [read_bind (slice?_eq_some (Nat.le_succ _) hnext), slice_succ hnext]
          refine ends_pure (.inr ⟨_, _, _, .next haction hexplicit hvalue hletter harg, ?_⟩)
          rw [Bool.toNat_true, Option.toList_none, List.append_nil]
      · next value hexplicit =>
        rw [read_bind (takesValue_eq hnames.lt)]
        split_ifs with hvalue
        · refine ends_pure (.inr ⟨_, _, _, .written haction hexplicit ?_, ?_⟩)
          · rw [takesValue_eq hnames.lt, hvalue]
          · rw [Bool.toNat_false, Nat.add_zero, Option.toList_none, List.append_nil]
        · have hflag : takesValue parser index = some false := by
            rw [takesValue_eq hnames.lt, Bool.eq_false_iff.mpr hvalue]
          refine (ends_nextShort hnames.lt).bind_eq fun found hshort _ => ?_
          cases found with
          | none =>
            exact ends_pure (.inr ⟨_, _, _, .unread haction hexplicit hflag hshort, rfl⟩)
          | some after =>
            obtain ⟨⟨named, hnamed, hnames'⟩, hrounds⟩ := names_of_nextShort hshort
            have hbound : roundsOf reading = value.text.length + 1 := by
              rw [roundsOf, hexplicit]
              rfl
            have hafter : ∀ index, after.action = some index → parser.Names index :=
              fun index hindex => Option.some.inj (hnamed.symm.trans hindex) ▸ hnames'
            refine (ih hafter (by omega) _).mono fun last hlast => .inr ?_
            obtain ⟨hnone, -⟩ | ⟨actions, valued, rest, hnamed', rfl⟩ := hlast
            · rw [hnamed] at hnone
              cases hnone
            · refine ⟨_, _, _, .cluster haction hexplicit hflag hshort hnamed', ?_⟩
              rw [List.append_assoc]
              rfl

end Options

end Agentless.Cli
