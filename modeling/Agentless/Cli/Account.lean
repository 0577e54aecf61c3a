import Agentless.Cli.Steps

/-!
# What a parse uses its arguments for

A parse that succeeds has used each argument once: for an option or its value, for a positional, as
the separator, or as an extra. The uses follow one another over the command line, and the actions
that they deliver values to are those that the parse has taken.
-/

namespace Agentless.Cli

/-- One use of arguments. An option may leave letters that it does not know; a positional may strip
the separator from what it takes. -/
inductive Use where
  | option (start : Nat) (actions : List (Nat × List Arg)) (valued : Bool) (rest : Option Text)
  | positional (start count index : Nat) (separator : Option Nat)
  | extra (start : Nat)
deriving DecidableEq, Repr

/-- The arguments from `start` on without the separator. -/
def held (args : List Arg) (start count : Nat) : Option Nat → List Arg
  | none => slice args start (start + count)
  | some place => slice args start place ++ slice args (place + 1) (start + count)

namespace Use

def positions : Use → List Nat
  | option start _ valued _ => List.range' start (1 + valued.toNat)
  | positional start count _ _ => List.range' start count
  | extra start => [start]

/-- The positional actions that are used up. -/
def placed : Use → List Nat
  | positional _ _ index _ => [index]
  | _ => []

section Args

variable (args : List Arg)

def deliveries : Use → List (Nat × List Arg)
  | option _ actions _ _ => actions
  | positional start count index separator => [(index, held args start count separator)]
  | extra _ => []

def extras : Use → List Text
  | option _ _ _ rest => rest.toList
  | positional .. => []
  | extra start => (args[start]?.map Arg.text).toList

end Args

variable {β ω σ : Type}

/-- The separator that a positional strips from what it takes. -/
def Strips (pattern : List Letter) (mine : Nargs) (start count : Nat) : Option Nat → Prop
  | some place => start ≤ place ∧ place < start + count ∧ pattern[place]? = some .separator
  | none => stripsSeparator mine (slice pattern start (start + count)) = false

/-- The use is one that the pattern and the readings of the command line allow. -/
def Valid (setup : Setup β ω σ) (parser : Parser β ω) (args : List Arg) (found : Classified) :
    Use → Prop
  | option start actions valued rest => ∃ reading, (start, [reading]) ∈ found.options ∧
      Named setup parser args found.pattern start reading actions valued rest
  | positional start count index separator => ∃ mine, nargs parser index = some mine ∧
      start + count ≤ args.length ∧ Strips found.pattern mine start count separator
  | extra start => start < args.length

end Use

/-- The arguments before `stop` are used, each once, and the run has taken the actions of the
uses. -/
structure Accounts (setup : Setup β ω σ) (parser : Parser β ω)
    (parseSub : Parser β ω → List Arg → σ → Attempt Exit (Known ω × σ)) (args : List Arg)
    (found : Classified) (state : σ) (run : Run ω σ) (stop : Nat) (uses : List Use) : Prop where
  positions : uses.flatMap Use.positions = List.range stop
  valid : ∀ use ∈ uses, use.Valid setup parser args found
  placed : uses.flatMap Use.placed ++ run.positionals = parser.positionals
  results : (takeActions setup parser parseSub (uses.flatMap (Use.deliveries args))
    (Results.start parser state)).run = some (.ok run.results)
  extras : uses.flatMap (Use.extras args) = run.extras
  options : run.options ⊆ found.options
  sized : run.results.Sized parser
  le : stop ≤ args.length

variable {setup : Setup β ω σ} {parser : Parser β ω}
  {parseSub : Parser β ω → List Arg → σ → Attempt Exit (Known ω × σ)} {args : List Arg}
  {found : Classified} {state : σ} {run : Run ω σ} {start stop count : Nat} {uses : List Use}

/-! ## Positionals -/

theorem exists_separator {mine : Nargs} {letters : List Letter}
    (h : stripsSeparator mine letters = true) :
    ∃ place : Nat, letters[place]? = some Letter.separator := by
  cases mine with
  | arity arity =>
    have hmem : Letter.separator ∈ letters := List.contains_iff_mem.mp h
    obtain ⟨place, hplace, heq⟩ := List.getElem_of_mem hmem
    exact ⟨place, List.getElem?_eq_some_iff.mpr ⟨hplace, heq⟩⟩
  | parser =>
    refine ⟨0, ?_⟩
    rw [← List.head?_eq_getElem?]
    exact of_decide_eq_true h

/-- What a positional is given are its arguments without the separator. -/
theorem exists_held (h : found.Sound parser args) (mine : Nargs)
    (hroom : start + count ≤ args.length) : ∃ separator,
      Use.Strips found.pattern mine start count separator ∧
      stripped mine (slice found.pattern start (start + count)) (slice args start (start + count)) =
        held args start count separator := by
  cases hstrips : stripsSeparator mine (slice found.pattern start (start + count)) with
  | false => exact ⟨none, hstrips, by rw [stripped, hstrips]; rfl⟩
  | true =>
    obtain ⟨offset, hoffset⟩ := exists_separator hstrips
    obtain ⟨hlt, -⟩ := List.getElem?_eq_some_iff.mp hoffset
    rw [length_slice (h.length.symm ▸ hroom), Nat.add_sub_cancel_left] at hlt
    rw [getElem?_slice, Nat.add_sub_cancel_left, if_pos hlt] at hoffset
    obtain ⟨htext, hbefore⟩ := h.separator _ hoffset
    obtain ⟨arg, harg, htext⟩ := Option.map_eq_some_iff.mp htext
    obtain ⟨hplace, rfl⟩ := List.getElem?_eq_some_iff.mp harg
    refine ⟨some (start + offset), ⟨Nat.le_add_right _ _, by omega, hoffset⟩, ?_⟩
    have hcons : slice args (start + offset) (start + count) =
        args[start + offset] :: slice args (start + offset + 1) (start + count) := by
      have hsize : start + count - (start + offset) =
          start + count - (start + offset + 1) + 1 := by omega
      rw [slice, List.drop_eq_getElem_cons hplace, hsize]
      rfl
    -- the separator is the first argument with its text
    have hfirst : ∀ arg ∈ slice args start (start + offset),
        ¬ decide (arg.text = "--".toList) = true := by
      intro arg hmem
      rw [decide_eq_true_eq]
      have hsubset : slice args start (start + offset) ⊆ args.take (start + offset) := by
        rw [slice, ← List.drop_take]
        exact List.drop_subset _ _
      exact hbefore arg (hsubset hmem)
    rw [stripped, if_pos hstrips, ← slice_append (Nat.le_add_right start offset) (by omega),
      List.eraseP_append_right _ hfirst, hcons, List.eraseP_cons_of_pos]
    · rfl
    · exact decide_eq_true htext

theorem length_stripped_le {mine : Nargs} {letters : List Letter} {values : List Arg} :
    (stripped mine letters values).length ≤ values.length := by
  unfold stripped
  split_ifs
  · exact List.length_eraseP_le
  · exact le_refl _

theorem held_ne_nil {mine : Nargs} {separator : Option Nat} {letters : List Letter}
    (hroom : start + count ≤ args.length) (hletters : letters.length = count)
    (hheld : stripped mine letters (slice args start (start + count)) =
      held args start count separator)
    (hmine : mine = .parser) (hpiece : letters ∈ Regex.language Nargs.parser.regex) :
    held args start count separator ≠ [] := by
  obtain ⟨hne, htwo⟩ := parser_piece hpiece
  have hlength : (slice args start (start + count)).length = count := by
    rw [length_slice hroom, Nat.add_sub_cancel_left]
  have hpos := List.length_pos_of_ne_nil hne
  rw [← hheld, hmine, stripped]
  split_ifs with hstrips
  · have hle := htwo (of_decide_eq_true hstrips)
    have herase : (slice args start (start + count)).length - 1 ≤
        ((slice args start (start + count)).eraseP (·.text = "--".toList)).length :=
      List.le_length_eraseP
    exact List.ne_nil_of_length_pos (by omega)
  · exact List.ne_nil_of_length_pos (by omega)

theorem mem_positionals {index : Nat} : index ∈ parser.positionals ↔
    ∃ action, parser.actions[index]? = some action ∧ action.strings = [] := by
  unfold Parser.positionals
  rw [List.mem_filter, List.mem_range, Option.any_eq_true]
  constructor
  · rintro ⟨-, action, haction, hempty⟩
    exact ⟨action, haction, List.isEmpty_iff.mp hempty⟩
  · rintro ⟨action, haction, hempty⟩
    exact ⟨(List.getElem?_eq_some_iff.mp haction).1, action, haction, List.isEmpty_iff.mpr hempty⟩

theorem exists_nargs {index : Nat} (h : index ∈ parser.positionals) : ∃ mine,
    nargs parser index = some mine ∧
      ∀ values : List Arg, (mine = .parser → values ≠ []) → Takes parser index values := by
  obtain ⟨action, haction, hstrings⟩ := mem_positionals.mp h
  obtain ⟨hlt, rfl⟩ := List.getElem?_eq_some_iff.mp haction
  have hplaced := parser.actions[index].placed hstrings
  refine ⟨_, congrArg (Option.map _) haction, fun values hvalues => ⟨hlt, fun hkind => hvalues ?_⟩⟩
  cases hmine : parser.actions[index].kind with
  | positional arity =>
    rw [hmine] at hkind
    exact absurd hkind (by simp [Kind.takesValue, Kind.commands?])
  | commands commands =>
    dsimp only
    rw [hmine]
  | help | flag | value | version =>
    rw [hmine] at hplaced
    exact hplaced.elim

/-! ## Runs of actions -/

theorem run_takeActions_append {first second : List (Nat × List Arg)}
    {before after last : Results ω σ}
    (hfirst : (takeActions setup parser parseSub first before).run = some (.ok after))
    (hsecond : (takeActions setup parser parseSub second after).run = some (.ok last)) :
    (takeActions setup parser parseSub (first ++ second) before).run = some (.ok last) := by
  rw [takeActions, List.foldlM_append]
  exact Attempt.run_bind_eq_ok_iff.mpr ⟨after, hfirst, hsecond⟩

theorem run_takeActions_singleton {index : Nat} {values : List Arg} {before after : Results ω σ}
    (h : (takeAction setup parser parseSub index values before).run = some (.ok after)) :
    (takeActions setup parser parseSub [(index, values)] before).run = some (.ok after) := by
  rw [takeActions, List.foldlM_cons, Attempt.run_bind_eq_ok_iff]
  exact ⟨after, h, rfl⟩

theorem ends_takeActions {actions : List (Nat × List Arg)} {results : Results ω σ}
    (hactions : ∀ entry ∈ actions, Takes parser entry.1 entry.2 ∧ entry.2.length ≤ args.length)
    (hsub : ∀ parser rest state, rest.length < args.length →
      Attempt.Ends (parseSub parser rest state) fun _ => True)
    (hresults : results.Sized parser) :
    Attempt.Ends (takeActions setup parser parseSub actions results) fun after =>
      after.Sized parser := by
  induction actions generalizing results with
  | nil => exact Attempt.ends_pure hresults
  | cons entry actions ih =>
    obtain ⟨⟨htakes, hlength⟩, hlater⟩ := List.forall_mem_cons.mp hactions
    rw [takeActions, List.foldlM_cons]
    refine (ends_takeAction htakes (fun parser rest state hrest => hsub parser rest state ?_)
      hresults).bind fun after hafter => ih hlater hafter
    exact hrest.trans_le hlength

/-! ## Positionals in a row -/

theorem ends_takeCounts {positionals : List Nat} {wanted : List Nargs} {counts : List Nat}
    {position start : Nat} {results : Results ω σ} (hfound : found.Sound parser args)
    (hpositionals : ∀ index ∈ positionals, index ∈ parser.positionals)
    (hwanted : ∀ position : Nat, wanted[position]? = positionals[position]?.bind (nargs parser))
    (hposition : position + counts.length ≤ positionals.length)
    (hpieces : Regex.Pieces found.pattern
      (((wanted.drop position).take counts.length).map Nargs.regex) start counts)
    (hsub : ∀ parser rest state, rest.length < args.length →
      Attempt.Ends (parseSub parser rest state) fun _ => True)
    (hresults : results.Sized parser) :
    Attempt.Ends
      (takeCounts setup parser parseSub args found.pattern positionals wanted counts position start
        results)
      fun after => after.1 = start + counts.sum ∧ (start ≤ args.length → after.1 ≤ args.length) ∧
        after.2.Sized parser ∧
        ∃ uses : List Use, uses.flatMap Use.positions = List.range' start counts.sum ∧
          uses.flatMap Use.placed = (positionals.drop position).take counts.length ∧
          (∀ use ∈ uses, use.Valid setup parser args found) ∧
          uses.flatMap (Use.extras args) = [] ∧
          (takeActions setup parser parseSub (uses.flatMap (Use.deliveries args)) results).run =
            some (.ok after.2) := by
  induction counts generalizing position start results with
  | nil =>
    exact Attempt.ends_pure ⟨rfl, id, hresults, [], rfl, rfl, List.forall_mem_nil _, rfl, rfl⟩
  | cons count counts ih =>
    rw [List.length_cons] at hposition hpieces
    have hlt : position < positionals.length := by omega
    have hmem := hpositionals _ (List.getElem_mem hlt)
    obtain ⟨mine, hmine, htakes⟩ := exists_nargs hmem
    have hwants : wanted[position]? = some mine := by
      rw [hwanted, List.getElem?_eq_getElem hlt, Option.bind_some, hmine]
    obtain ⟨hwantedLt, hget⟩ := List.getElem?_eq_some_iff.mp hwants
    rw [List.drop_eq_getElem_cons hwantedLt, hget, List.take_succ_cons, List.map_cons] at hpieces
    obtain ⟨hroom, hpiece, hlater⟩ := hpieces
    have hroomArgs : start + count ≤ args.length := hfound.length ▸ hroom
    obtain ⟨separator, hseparator, hheld⟩ := exists_held hfound mine hroomArgs
    rw [takeCounts, Attempt.read_bind (List.getElem?_eq_getElem hlt),
      Attempt.read_bind (slice?_eq_some (Nat.le_add_right _ _) hroomArgs),
      Attempt.read_bind hwants, Attempt.read_bind (slice?_eq_some (Nat.le_add_right _ _) hroom),
      hheld]
    have hfilled : Takes parser positionals[position] (held args start count separator) :=
      htakes _ fun hparser => by
        subst hparser
        exact held_ne_nil hroomArgs (by rw [length_slice hroom, Nat.add_sub_cancel_left]) hheld
          rfl hpiece
    have hless : (held args start count separator).length ≤ args.length := by
      have hle := @length_stripped_le mine (slice found.pattern start (start + count))
        (slice args start (start + count))
      rw [hheld, length_slice hroomArgs] at hle
      omega
    refine (ends_takeAction hfilled (fun parser rest state hrest => hsub parser rest state
      (hrest.trans_le hless)) hresults).bind_eq fun after hafter hsized => ?_
    refine (ih (by omega) hlater hsized).mono ?_
    rintro ⟨stop, last⟩ ⟨rfl, hstop, hlast, uses, hpositions, hplaced, hvalid, hextras, hrun⟩
    refine ⟨by rw [List.sum_cons, Nat.add_assoc], fun _ => hstop hroomArgs, hlast,
      .positional start count positionals[position] separator :: uses, ?_, ?_, ?_, hextras, ?_⟩
    · rw [List.flatMap_cons, hpositions, List.sum_cons, ← List.range'_append_1]
      rfl
    · rw [List.flatMap_cons, hplaced, List.drop_eq_getElem_cons hlt, List.length_cons,
        List.take_succ_cons]
      rfl
    · exact List.forall_mem_cons.mpr ⟨⟨mine, hmine, hroomArgs, hseparator⟩, hvalid⟩
    · rw [List.flatMap_cons]
      exact run_takeActions_append (run_takeActions_singleton hafter) hrun

theorem range_append_range' (start count : Nat) :
    List.range start ++ List.range' start count = List.range (start + count) := by
  rw [List.range_eq_range', List.range_eq_range', ← List.range'_append_1, Nat.zero_add]

/-! ## The steps of a run -/

theorem Accounts.add {use : Use} {after : Run ω σ}
    (h : Accounts setup parser parseSub args found state run start uses)
    (hpositions : use.positions = List.range' start count) (hplaced : use.placed = [])
    (hvalid : use.Valid setup parser args found)
    (hpositionals : after.positionals = run.positionals)
    (hresults : (takeActions setup parser parseSub (use.deliveries args) run.results).run =
      some (.ok after.results))
    (hextras : after.extras = run.extras ++ use.extras args)
    (hoptions : after.options ⊆ found.options) (hsized : after.results.Sized parser)
    (hroom : start + count ≤ args.length) :
    Accounts setup parser parseSub args found state after (start + count) (uses ++ [use]) := by
  constructor
  · rw [List.flatMap_append, List.flatMap_singleton, h.positions, hpositions, range_append_range']
  · exact List.forall_mem_append.mpr ⟨h.valid, List.forall_mem_singleton.mpr hvalid⟩
  · rw [List.flatMap_append, List.flatMap_singleton, hplaced, List.append_nil, hpositionals,
      h.placed]
  · rw [List.flatMap_append, List.flatMap_singleton]
    exact run_takeActions_append h.results hresults
  · rw [List.flatMap_append, List.flatMap_singleton, h.extras, hextras]
  · exact hoptions
  · exact hsized
  · exact hroom

/-- Arguments that nothing takes are extras. -/
theorem Accounts.addExtras (h : Accounts setup parser parseSub args found state run start uses)
    (hroom : start + count ≤ args.length) :
    ∃ uses, Accounts setup parser parseSub args found state
      { run with extras := run.extras ++ (slice args start (start + count)).map Arg.text }
      (start + count) uses := by
  induction count with
  | zero =>
    rw [Nat.add_zero, slice_self, List.map_nil, List.append_nil]
    exact ⟨uses, h⟩
  | succ count ih =>
    obtain ⟨uses, hbefore⟩ := ih (by omega)
    have hlt : start + count < args.length := hroom
    have hslice : slice args start (start + count + 1) =
        slice args start (start + count) ++ [args[start + count]] := by
      rw [← slice_succ hlt, slice_append (Nat.le_add_right start count) (Nat.le_succ _)]
    have hvalid : (Use.extra (start + count)).Valid setup parser args found := hlt
    rw [← Nat.add_assoc] at hroom ⊢
    refine ⟨uses ++ [.extra (start + count)],
      hbefore.add rfl rfl hvalid rfl rfl ?_ hbefore.options hbefore.sized hroom⟩
    rw [hslice, List.map_append, ← List.append_assoc, Use.extras, List.getElem?_eq_getElem hlt]
    rfl

section Steps

variable (hfound : found.Sound parser args)
  (hsub : ∀ parser rest state, rest.length < args.length →
    Attempt.Ends (parseSub parser rest state) fun _ => True)

include hfound hsub

theorem ends_consumePositionals
    (h : Accounts setup parser parseSub args found state run start uses) :
    Attempt.Ends (consumePositionals setup parser parseSub args found.pattern start run)
      fun after => start ≤ after.1 ∧ after.2.options = run.options ∧
        ∃ uses, Accounts setup parser parseSub args found state after.2 after.1 uses := by
  have hmem : ∀ index ∈ run.positionals, index ∈ parser.positionals := fun index hindex =>
    h.placed ▸ List.mem_append_right _ hindex
  have hnargs : ∀ index ∈ run.positionals,
      nargs parser index = some ((nargs parser index).getD .parser) := by
    intro index hindex
    obtain ⟨mine, hmine, -⟩ := exists_nargs (hmem index hindex)
    rw [hmine, Option.getD_some]
  have hstart : start ≤ found.pattern.length := hfound.length ▸ h.le
  obtain ⟨counts, hcounts, hlength, hpieces⟩ := matchPartial_pieces
    (run.positionals.map fun index => (nargs parser index).getD .parser) (found.pattern.drop start)
  rw [Regex.pieces_drop hstart, Nat.add_zero] at hpieces
  rw [List.length_map] at hlength
  rw [consumePositionals, Attempt.read_bind (mapM_eq_some_map hnargs),
    Attempt.read_bind (slice?_eq_some hstart (le_refl _)), slice_length,
    Attempt.read_bind hcounts]
  have hwanted : ∀ position : Nat,
      (run.positionals.map fun index => (nargs parser index).getD .parser)[position]? =
        run.positionals[position]?.bind (nargs parser) := by
    intro position
    rw [List.getElem?_map]
    cases hat : run.positionals[position]? with
    | none => rfl
    | some index => exact (hnargs index (List.mem_of_getElem? hat)).symm
  refine (ends_takeCounts hfound hmem hwanted (by rwa [Nat.zero_add]) hpieces hsub h.sized).bind ?_
  rintro ⟨stop, results⟩ ⟨rfl, hstop, hsized, more, hpositions, hplaced, hvalid, hextras, hrun⟩
  dsimp only
  rw [Attempt.read_bind (slice?_eq_some hlength (le_refl _)), slice_length]
  refine Attempt.ends_pure ⟨Nat.le_add_right _ _, rfl, uses ++ more, ?_⟩
  constructor
  · rw [List.flatMap_append, h.positions, hpositions, range_append_range']
  · exact List.forall_mem_append.mpr ⟨h.valid, hvalid⟩
  · rw [List.flatMap_append, hplaced, List.append_assoc, List.drop_zero, List.take_append_drop,
      h.placed]
  · rw [List.flatMap_append]
    exact run_takeActions_append h.results hrun
  · rw [List.flatMap_append, h.extras, hextras, List.append_nil]
  · exact h.options
  · exact hsized
  · exact hstop h.le

omit hsub in
/-- The readings of an option that the run still has are those of the command line. -/
theorem readings_of_mem {place : Nat} {tuples : List Tuple}
    (h : Accounts setup parser parseSub args found state run start uses)
    (hmem : (place, tuples) ∈ run.options) : ∃ tuples, run.options.lookup place = some tuples ∧
      (place, tuples) ∈ found.options ∧ place < args.length ∧ Readings parser tuples := by
  cases hlookup : run.options.lookup place with
  | none => exact absurd (List.lookup_eq_none_iff.mp hlookup _ hmem) (by simp)
  | some tuples =>
    obtain ⟨before, after, hsplit, -⟩ := List.lookup_eq_some_iff.mp hlookup
    have hin : (place, tuples) ∈ found.options := h.options (hsplit ▸ List.mem_append_right _
      List.mem_cons_self)
    obtain ⟨hletter, hreadings⟩ := hfound.options _ hin
    obtain ⟨hlt, -⟩ := List.getElem?_eq_some_iff.mp hletter
    exact ⟨tuples, rfl, hin, hfound.length ▸ hlt, hreadings⟩

theorem ends_consumeOptional {tuples : List Tuple}
    (h : Accounts setup parser parseSub args found state run start uses)
    (hmem : (start, tuples) ∈ run.options) :
    Attempt.Ends (consumeOptional setup parser parseSub args found.pattern start run)
      fun after => start < after.1 ∧
        ∃ uses, Accounts setup parser parseSub args found state after.2 after.1 uses := by
  obtain ⟨tuples, hlookup, hin, hlt, hne, hreadings⟩ := readings_of_mem hfound h hmem
  have hoptions : run.options.filter (·.1 ≠ start) ⊆ found.options := fun entry hentry =>
    h.options (List.mem_of_mem_filter hentry)
  unfold consumeOptional
  dsimp only
  rw [hlookup, Option.getD_some]
  split
  · exact absurd rfl hne
  · next first =>
    have hreading := List.forall_mem_singleton.mp hreadings
    refine (ends_matchOptional hfound.length hlt hreading (le_refl _) _).bind fun taken htaken => ?_
    obtain ⟨-, rfl⟩ | ⟨actions, valued, rest, hnamed, rfl⟩ := htaken
    · refine Attempt.ends_pure ⟨Nat.lt_succ_self _, uses ++ [.extra start], ?_⟩
      refine h.add rfl rfl hlt rfl rfl ?_ hoptions h.sized hlt
      rw [Use.extras, List.getElem?_eq_getElem hlt]
      rfl
    · have htakes : ∀ entry ∈ actions,
          Takes parser entry.1 entry.2 ∧ entry.2.length ≤ args.length := by
        intro entry hentry
        have hle := hnamed.length_le entry hentry
        exact ⟨(hnamed.takes hreading entry hentry).2, by omega⟩
      refine (ends_takeActions htakes hsub h.sized).bind_eq fun results hresults hsized => ?_
      refine Attempt.ends_pure ⟨Nat.lt_of_lt_of_le (Nat.lt_succ_self start) (Nat.le_add_right _ _),
        uses ++ [.option start actions valued rest], ?_⟩
      have hroom := hnamed.room hlt
      rw [Nat.add_assoc] at hroom ⊢
      exact h.add rfl rfl ⟨first, hin, hnamed⟩ rfl hresults rfl hoptions hsized hroom
  · rw [Attempt.read_bind (List.getElem?_eq_getElem hlt)]
    exact Attempt.ends_throw _

omit hfound hsub in
theorem texts_eq_some (hroom : start + count ≤ args.length) :
    texts args start (start + count) = some ((slice args start (start + count)).map Arg.text) := by
  rw [texts, slice?_eq_some (Nat.le_add_right _ _) hroom]
  rfl

theorem ends_consumeValues {next : Nat}
    (h : Accounts setup parser parseSub args found state run start uses) (hle : start ≤ next)
    (hroom : next ≤ args.length) :
    Attempt.Ends (consumeValues setup parser parseSub args found.pattern start next run)
      fun after => after.2.options = run.options ∧
        ∃ uses stop, Accounts setup parser parseSub args found state after.2 stop uses ∧
          match after.1 with
          | some moved => stop = moved ∧ start < moved
          | none => stop = next := by
  obtain ⟨count, rfl⟩ := Nat.exists_eq_add_of_le hle
  unfold consumeValues
  split_ifs with hhere
  · exact Attempt.ends_pure ⟨rfl, uses, start, h, hhere⟩
  · refine (ends_consumePositionals hfound hsub h).bind ?_
    rintro ⟨stop, after⟩ ⟨hstart, hoptions, taken, hafter⟩
    dsimp only
    split_ifs with hmoved
    · exact Attempt.ends_pure ⟨hoptions, taken, stop, hafter, rfl, hmoved⟩
    · obtain rfl : start = stop := le_antisymm hstart (not_lt.mp hmoved)
      obtain ⟨left, hextras⟩ := hafter.addExtras hroom
      rw [Attempt.read_bind (texts_eq_some hroom)]
      exact Attempt.ends_pure ⟨hoptions, left, _, hextras, rfl⟩

theorem ends_consumeOptions {fuel : Nat}
    (h : Accounts setup parser parseSub args found state run start uses)
    (hfuel : args.length - start < fuel) :
    Attempt.Ends (consumeOptions setup parser parseSub args found.pattern fuel start run)
      fun after => ∃ uses,
        Accounts setup parser parseSub args found state after.2 after.1 uses := by
  induction fuel generalizing start run uses with
  | zero => exact absurd hfuel (Nat.not_lt_zero _)
  | succ fuel ih =>
    rw [consumeOptions]
    split
    · exact Attempt.ends_pure ⟨uses, h⟩
    · next next hnext =>
      obtain ⟨⟨place, tuples⟩, hentry, rfl⟩ := Option.map_eq_some_iff.mp hnext
      have hmem := List.mem_of_find?_eq_some hentry
      have hfirst := List.find?_some hentry
      have hle : start ≤ place := of_decide_eq_true hfirst
      obtain ⟨-, -, -, hlt, -⟩ := readings_of_mem hfound h hmem
      refine (ends_consumeValues hfound hsub h hle hlt.le).bind ?_
      rintro ⟨moved, after⟩ ⟨hoptions, before, stop, hafter, hmoved⟩
      cases moved with
      | some moved =>
        obtain ⟨rfl, hstart⟩ := hmoved
        exact ih hafter (by omega)
      | none =>
        obtain rfl := hmoved
        have hleft : (stop, tuples) ∈ after.options := hoptions ▸ hmem
        refine (ends_consumeOptional hfound hsub hafter hleft).bind ?_
        rintro ⟨last, named⟩ ⟨hlast, taken, hnamed⟩
        exact ih hnamed (by omega)

/-- The whole command line is used. -/
theorem ends_consumeAll (h : Accounts setup parser parseSub args found state run 0 uses) :
    Attempt.Ends (consumeAll setup parser parseSub args found.pattern run)
      fun after => ∃ uses,
        Accounts setup parser parseSub args found state after args.length uses := by
  unfold consumeAll
  refine (ends_consumeOptions hfound hsub h (Nat.lt_succ_self _)).bind ?_
  rintro ⟨start, after⟩ ⟨before, hafter⟩
  refine (ends_consumePositionals hfound hsub hafter).bind ?_
  rintro ⟨stop, last⟩ ⟨-, -, taken, hlast⟩
  obtain ⟨count, hcount⟩ := Nat.exists_eq_add_of_le hlast.le
  obtain ⟨left, hextras⟩ := hlast.addExtras hcount.ge
  dsimp only at hextras ⊢
  rw [hcount, Attempt.read_bind (texts_eq_some hcount.ge)]
  exact Attempt.ends_pure ⟨left, hextras⟩

end Steps

end Agentless.Cli
