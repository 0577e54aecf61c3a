import Agentless.Cli.Account

/-!
# The parse accounts for every argument

A parse of any command line ends, and one that succeeds has used each argument once. Nothing is left
over when it has no extras, in the command line of the chosen subcommand either.
-/

namespace Agentless.Cli

variable {β ω σ : Type} {setup : Setup β ω σ} {parser : Parser β ω} {args : List Arg} {state : σ}

open Attempt

/-! ## The required actions -/

theorem exists_filterMapM {α β : Type} {items : List α} {read : α → Option (Option β)}
    (h : ∀ item ∈ items, ∃ found, read item = some found) :
    ∃ found, items.filterMapM read = some found := by
  induction items with
  | nil => exact ⟨[], rfl⟩
  | cons item items ih =>
    obtain ⟨⟨first, hfirst⟩, hitems⟩ := List.forall_mem_cons.mp h
    obtain ⟨later, hlater⟩ := ih hitems
    rw [List.filterMapM_cons, hfirst]
    cases first with
    | none => exact ⟨later, hlater⟩
    | some found => exact ⟨found :: later, by simp [hlater]⟩

theorem ends_checkRequired {results : Results ω σ} (h : results.Sized parser) :
    Ends (checkRequired setup parser results) fun _ => True := by
  obtain ⟨left, hleft⟩ : ∃ left, missing parser results.seen = some left := by
    refine exists_filterMapM fun entry hentry => ?_
    obtain ⟨action, index⟩ := entry
    have hindex : index < results.seen.length := by
      rw [h.1]
      exact (List.getElem?_eq_some_iff.mp (List.mem_zipIdx_iff_getElem?.mp hentry)).1
    dsimp only
    split_ifs
    · rw [List.getElem?_eq_getElem hindex]
      cases results.seen[index]
      · exact ⟨_, rfl⟩
      · exact ⟨_, rfl⟩
    · exact ⟨_, rfl⟩
  rw [checkRequired, read_bind hleft]
  split_ifs
  · exact ends_throw _
  · split
    · exact ends_pure trivial
    · next group hgroup =>
      have hmembers : ∀ member ∈ group.members, member < parser.actions.length := by
        intro member hmember
        have hbounds := List.mem_range'_1.mp hmember
        have hle := parser.grouped group (Option.eq_some_of_filter_eq_some hgroup)
        omega
      obtain ⟨found, hfound, -⟩ := @exists_firstUsed results.used group.members
        fun member hmember => h.2.symm ▸ hmembers member hmember
      rw [read_bind hfound]
      split
      · exact ends_pure trivial
      · have hnames : ∀ member ∈ group.members, parser.actions[member]?.map Action.name =
            some ((parser.actions[member]?.map Action.name).getD []) := by
          intro member hmember
          rw [List.getElem?_eq_getElem (hmembers member hmember)]
          rfl
        rw [read_bind (mapM_eq_some_map hnames)]
        exact ends_throw _

/-! ## A whole parse -/

theorem sized_start (parser : Parser β ω) (state : σ) :
    (Results.start (ω := ω) parser state).Sized parser :=
  ⟨List.length_replicate, List.length_replicate⟩

/-- The account of a parse: its run has used the whole command line. -/
theorem ends_parseKnown {fuel : Nat} (hfuel : args.length < fuel) :
    Ends (parseKnown setup fuel parser args state) fun after => ∃ sub run uses, sub < fuel ∧
      args.length ≤ sub ∧
      Accounts setup parser (parseKnown setup sub) args (classify setup parser args) state run
        args.length uses ∧
      after = (⟨run.results.given, run.extras ++ run.results.subExtras, run.results.chosen⟩,
        run.results.state) := by
  induction fuel generalizing parser args state with
  | zero => exact absurd hfuel (Nat.not_lt_zero _)
  | succ fuel ih =>
    have hfound := @classify_sound _ _ _ setup parser args
    have hsub : ∀ parser rest state, rest.length < args.length →
        Ends (parseKnown setup fuel parser rest state) fun _ => True := by
      intro parser rest state hrest
      exact (ih (by omega)).mono fun _ _ => trivial
    have hstart : Accounts setup parser (parseKnown setup fuel) args (classify setup parser args)
        state ⟨(classify setup parser args).options, parser.positionals,
          Results.start parser state, []⟩ 0 [] :=
      ⟨rfl, List.forall_mem_nil _, rfl, rfl, rfl, List.Subset.refl _, sized_start parser state,
        Nat.zero_le _⟩
    rw [parseKnown]
    refine (ends_consumeAll hfound hsub hstart).bind fun run hrun => ?_
    obtain ⟨uses, hrun⟩ := hrun
    refine (ends_checkRequired hrun.sized).bind fun _ _ => ?_
    exact ends_pure ⟨fuel, run, uses, Nat.lt_succ_self _, by omega, hrun, rfl⟩

/-! ## Subcommands -/

/-- The parser's subcommand. -/
def Parser.IsCommands (parser : Parser β ω) (index : Nat) : Bool :=
  parser.actions[index]?.any (·.kind.commands?.isSome)

theorem Parser.Names.isCommands {index : Nat} (h : parser.Names index) :
    parser.IsCommands index = false := by
  obtain ⟨action, haction, hstrings⟩ := h
  rw [Parser.IsCommands, haction, Option.any_some, Option.isSome_eq_false_iff,
    Option.isNone_iff_eq_none]
  cases hkind : action.kind.commands? with
  | none => rfl
  | some commands =>
    exact absurd (Kind.commands?_eq_some.mp hkind) (action.named hstrings commands)

section Commands

variable {parseSub : Parser β ω → List Arg → σ → Attempt Exit (Known ω × σ)} {index : Nat}
  {values : List Arg} {results after : Results ω σ}

theorem run_read_bind_eq_ok {α γ : Type} {found : Option α} {next : α → Attempt Exit γ} {last : γ}
    (h : (read found >>= next).run = some (.ok last)) :
    ∃ value, found = some value ∧ (next value).run = some (.ok last) := by
  cases found with
  | none => cases h
  | some value => exact ⟨value, rfl, h⟩

/-- Taking an action changes what is left of a subcommand's arguments only by parsing them. -/
theorem subExtras_takeAction
    (h : (takeAction setup parser parseSub index values results).run = some (.ok after)) :
    (parser.IsCommands index = false → after.subExtras = results.subExtras) ∧
      ∀ action commands name rest command, parser.actions[index]? = some action →
        action.kind = .commands commands → values = name :: rest →
        commands.find? (·.name = name.text) = some command → ∃ state known last,
          (parseSub (command.parser setup) rest state).run = some (.ok (known, last)) ∧
            after.subExtras = known.extras := by
  unfold takeAction at h
  obtain ⟨seen, -, hseen⟩ := run_read_bind_eq_ok h
  obtain ⟨⟨value, state⟩, -, hconverted⟩ := run_bind_eq_ok_iff.mp hseen
  obtain ⟨used, -, hused⟩ := run_bind_eq_ok_iff.mp hconverted
  obtain ⟨action, haction, hstored⟩ := run_read_bind_eq_ok hused
  clear h hseen hconverted hused
  have other : (∀ commands, action.kind ≠ .commands commands) →
      after.subExtras = results.subExtras →
      (parser.IsCommands index = false → after.subExtras = results.subExtras) ∧
      ∀ found commands name rest command, parser.actions[index]? = some found →
        found.kind = .commands commands → values = name :: rest →
        commands.find? (·.name = name.text) = some command → ∃ state known last,
          (parseSub (command.parser setup) rest state).run = some (.ok (known, last)) ∧
            after.subExtras = known.extras := by
    refine fun hnone hsame => ⟨fun _ => hsame, fun found commands _ _ _ hfound hkind => ?_⟩
    obtain rfl := Option.some.inj (haction.symm.trans hfound)
    exact absurd hkind (hnone commands)
  dsimp only at hstored
  split at hstored
  · cases hstored
  · cases hstored
  · next commands hkind =>
    refine ⟨fun hnot => ?_, ?_⟩
    · rw [Parser.IsCommands, haction, Option.any_some, hkind] at hnot
      cases hnot
    · rintro found commands' name rest command hfound hkind' rfl hfind
      obtain rfl := Option.some.inj (haction.symm.trans hfound)
      obtain rfl : commands = commands' := by
        rw [hkind] at hkind'
        exact Kind.commands.inj hkind'
      unfold choose at hstored
      obtain ⟨first, hfirst, hchosen⟩ := run_read_bind_eq_ok hstored
      obtain rfl : name = first := Option.some.inj hfirst
      rw [hfind] at hchosen
      obtain ⟨later, hlater, hparsed⟩ := run_read_bind_eq_ok hchosen
      obtain ⟨⟨known, last⟩, hknown, hpure⟩ := run_bind_eq_ok_iff.mp hparsed
      have hone : 1 ≤ (name :: rest).length := Nat.succ_le_succ (Nat.zero_le _)
      rw [slice?_eq_some hone (le_refl _), slice_length] at hlater
      obtain rfl := Option.some.inj hlater
      cases hpure
      exact ⟨_, known, last, hknown, rfl⟩
  · next hkind =>
    cases hstored
    refine other (fun commands hcommands => ?_) rfl
    rw [hcommands] at hkind
    cases hkind
  · next hnot _ =>
    cases hstored
    exact other hnot rfl
  · next hnot =>
    cases hstored
    exact other hnot rfl

theorem subExtras_takeActions_of_free {deliveries : List (Nat × List Arg)}
    (hfree : ∀ entry ∈ deliveries, parser.IsCommands entry.1 = false)
    (h : (takeActions setup parser parseSub deliveries results).run = some (.ok after)) :
    after.subExtras = results.subExtras := by
  induction deliveries generalizing results with
  | nil =>
    cases h
    rfl
  | cons entry deliveries ih =>
    obtain ⟨hentry, hlater⟩ := List.forall_mem_cons.mp hfree
    rw [takeActions, List.foldlM_cons] at h
    obtain ⟨middle, hmiddle, hlast⟩ := run_bind_eq_ok_iff.mp h
    exact (ih hlater hlast).trans ((subExtras_takeAction hmiddle).1 hentry)

/-- The extras of the one subcommand are kept to the end. -/
theorem subExtras_takeActions {deliveries : List (Nat × List Arg)} {action : Action β ω}
    {commands : List (Command β ω)} {name : Arg} {rest : List Arg} {command : Command β ω}
    (hone : (deliveries.filter fun entry => parser.IsCommands entry.1).length ≤ 1)
    (h : (takeActions setup parser parseSub deliveries results).run = some (.ok after))
    (hmem : (index, name :: rest) ∈ deliveries) (haction : parser.actions[index]? = some action)
    (hkind : action.kind = .commands commands)
    (hfind : commands.find? (·.name = name.text) = some command) : ∃ state known last,
      (parseSub (command.parser setup) rest state).run = some (.ok (known, last)) ∧
        after.subExtras = known.extras := by
  have hcommands : parser.IsCommands index = true := by
    rw [Parser.IsCommands, haction, Option.any_some, hkind]
    rfl
  obtain ⟨before, later, rfl⟩ := List.append_of_mem hmem
  have hfree : ∀ entry ∈ later, parser.IsCommands entry.1 = false := by
    intro entry hentry
    by_contra hnot
    have hlater : entry ∈ later.filter fun entry => parser.IsCommands entry.1 :=
      List.mem_filter.mpr ⟨hentry, Bool.not_eq_false _ |>.mp hnot⟩
    have hpos := List.length_pos_of_mem hlater
    have hfilter :
        ((index, name :: rest) :: later).filter (fun entry => parser.IsCommands entry.1) =
          (index, name :: rest) :: later.filter fun entry => parser.IsCommands entry.1 :=
      List.filter_cons_of_pos hcommands
    rw [List.filter_append, hfilter, List.length_append, List.length_cons] at hone
    omega
  rw [takeActions, List.foldlM_append] at h
  obtain ⟨first, -, hrest⟩ := run_bind_eq_ok_iff.mp h
  rw [List.foldlM_cons] at hrest
  obtain ⟨middle, hmiddle, hlast⟩ := run_bind_eq_ok_iff.mp hrest
  obtain ⟨state, known, last, hparsed, hextras⟩ := (subExtras_takeAction hmiddle).2 action commands
    name rest command haction hkind rfl hfind
  exact ⟨state, known, last, hparsed, (subExtras_takeActions_of_free hfree hlast).trans hextras⟩

end Commands

/-- A parser has one subcommand at most. -/
theorem length_filter_isCommands (parser : Parser β ω) :
    ((List.range parser.actions.length).filter parser.IsCommands).length ≤ 1 := by
  have hsame : ∀ actions : List (Action β ω),
      ((List.range actions.length).filter fun index =>
        actions[index]?.any (·.kind.commands?.isSome)).length =
      (actions.filter (·.kind.commands?.isSome)).length := by
    intro actions
    induction actions using List.reverseRecOn with
    | nil => rfl
    | append_singleton actions action ih =>
      have hbefore : ∀ index ∈ List.range actions.length,
          (actions ++ [action])[index]?.any (·.kind.commands?.isSome) =
            actions[index]?.any (·.kind.commands?.isSome) := by
        intro index hindex
        rw [List.getElem?_append_left (List.mem_range.mp hindex)]
      rw [List.length_append, List.length_singleton, List.range_succ, List.filter_append,
        List.filter_append, List.length_append, List.length_append, List.filter_congr hbefore, ih,
        List.filter_singleton, List.filter_singleton, List.getElem?_concat_length, Option.any_some]
      cases action.kind.commands?.isSome <;> rfl
  exact (hsame parser.actions).trans_le parser.single

/-- Only a positional delivers to a subcommand. -/
theorem length_filter_deliveries {found : Classified} {uses : List Use}
    (hsound : found.Sound parser args)
    (hvalid : ∀ use ∈ uses, use.Valid setup parser args found) :
    ((uses.flatMap (Use.deliveries args)).filter fun entry => parser.IsCommands entry.1).length =
      ((uses.flatMap Use.placed).filter parser.IsCommands).length := by
  induction uses with
  | nil => rfl
  | cons use uses ih =>
    obtain ⟨huse, hlater⟩ := List.forall_mem_cons.mp hvalid
    rw [List.flatMap_cons, List.flatMap_cons, List.filter_append, List.filter_append,
      List.length_append, List.length_append, ih hlater]
    congr 1
    cases use with
    | option start actions valued rest =>
      obtain ⟨reading, hin, hnamed⟩ := huse
      obtain ⟨-, hreadings⟩ := (hsound.options _ hin).2
      have hnone : ∀ entry ∈ actions, ¬ parser.IsCommands entry.1 = true := by
        intro entry hentry
        have hnames := (hnamed.takes (hreadings _ List.mem_cons_self) entry hentry).1
        rw [hnames.isCommands]
        exact Bool.false_ne_true
      rw [Use.deliveries, List.filter_eq_nil_iff.mpr hnone]
      rfl
    | positional start count index separator =>
      rw [Use.deliveries, Use.placed, List.filter_singleton, List.filter_singleton]
      cases parser.IsCommands index <;> rfl
    | extra start => rfl

/-- No action is given more arguments than the command line has. -/
theorem length_deliveries {found : Classified} {uses : List Use} (hsound : found.Sound parser args)
    (hvalid : ∀ use ∈ uses, use.Valid setup parser args found) :
    ∀ entry ∈ uses.flatMap (Use.deliveries args), entry.2.length ≤ args.length := by
  intro entry hentry
  obtain ⟨use, huse, hin⟩ := List.mem_flatMap.mp hentry
  have hvalid := hvalid use huse
  cases use with
  | option start actions valued rest =>
    obtain ⟨reading, hreading, hnamed⟩ := hvalid
    obtain ⟨hlt, -⟩ := List.getElem?_eq_some_iff.mp (hsound.options _ hreading).1
    rw [hsound.length] at hlt
    exact (hnamed.length_le entry hin).trans (Nat.one_le_of_lt hlt)
  | positional start count index separator =>
    obtain ⟨mine, -, hroom, hstrips⟩ := hvalid
    obtain rfl := List.mem_singleton.mp hin
    cases separator with
    | none =>
      rw [held, length_slice hroom]
      omega
    | some place =>
      obtain ⟨hle, hlt, -⟩ := hstrips
      rw [held, List.length_append, length_slice (by omega), length_slice hroom]
      omega
  | extra start => cases hin

/-! ## Nothing is left over -/

/-- Every argument of a command line is used without a rest, and so are those of the subcommand that
it chooses. -/
inductive Delivered (setup : Setup β ω σ) : Parser β ω → List Arg → Prop where
  | intro {parser : Parser β ω} {args : List Arg} (uses : List Use)
    (hpositions : uses.flatMap Use.positions = List.range args.length)
    (hvalid : ∀ use ∈ uses, use.Valid setup parser args (classify setup parser args))
    (hextras : uses.flatMap (Use.extras args) = [])
    (hnested : ∀ (index : Nat) (name : Arg) (rest : List Arg) (action : Action β ω)
      (commands : List (Command β ω)) (command : Command β ω),
      (index, name :: rest) ∈ uses.flatMap (Use.deliveries args) →
      parser.actions[index]? = some action → action.kind = .commands commands →
      commands.find? (·.name = name.text) = some command →
      Delivered setup (command.parser setup) rest) :
    Delivered setup parser args

theorem delivered_of_parseKnown {fuel : Nat} (hfuel : args.length < fuel) {known : Known ω}
    {last : σ} (h : (parseKnown setup fuel parser args state).run = some (.ok (known, last)))
    (hnone : known.extras = []) : Delivered setup parser args := by
  induction fuel using Nat.strong_induction_on generalizing parser args state known last with
  | _ fuel ih =>
    obtain ⟨sub, run, uses, hless, hsub, haccounts, hknown⟩ := (ends_parseKnown hfuel).of_run h
    obtain ⟨rfl, -⟩ := Prod.mk.inj hknown
    obtain ⟨hextras, hsubExtras⟩ := List.append_eq_nil_iff.mp hnone
    have hsound := @classify_sound _ _ _ setup parser args
    refine .intro uses haccounts.positions haccounts.valid (haccounts.extras.trans hextras) ?_
    intro index name rest action commands command hmem haction hkind hfind
    have hone : ((uses.flatMap (Use.deliveries args)).filter
        fun entry => parser.IsCommands entry.1).length ≤ 1 := by
      rw [length_filter_deliveries hsound haccounts.valid]
      have hplaced : uses.flatMap Use.placed <+: parser.positionals := ⟨_, haccounts.placed⟩
      have hsublist := hplaced.sublist.trans List.filter_sublist
      exact (hsublist.filter parser.IsCommands).length_le.trans (length_filter_isCommands parser)
    obtain ⟨before, nested, after, hparsed, heq⟩ :=
      subExtras_takeActions hone haccounts.results hmem haction hkind hfind
    have hlength := length_deliveries hsound haccounts.valid _ hmem
    have hrest : rest.length < sub := by
      rw [List.length_cons] at hlength
      omega
    exact ih sub hless hrest hparsed (heq ▸ hsubExtras)

theorem extras_of_noExtras {extras : List Text} {done : PUnit}
    (h : (noExtras setup parser extras).run = some (.ok done)) : extras = [] := by
  unfold noExtras at h
  split_ifs at h with hnone
  · exact hnone
  · cases h

/-- The use of each argument by a parse that succeeds: the uses follow one another over the command
line, each is one that its readings allow, no positional is used twice, and what the parse knows is
what the actions of the uses leave. -/
def AccountedBy (setup : Setup β ω σ) (parser : Parser β ω) (args : List Arg) (state : σ) (fuel : Nat)
    (known : Known ω) (last : σ) (uses : List Use) : Prop :=
  ∃ (sub : Nat) (results : Results ω σ), sub < fuel ∧
    uses.flatMap Use.positions = List.range args.length ∧
    (∀ use ∈ uses, use.Valid setup parser args (classify setup parser args)) ∧
    uses.flatMap Use.placed <+: parser.positionals ∧
    (takeActions setup parser (parseKnown setup sub) (uses.flatMap (Use.deliveries args))
      (Results.start parser state)).run = some (.ok results) ∧
    known = ⟨results.given, uses.flatMap (Use.extras args) ++ results.subExtras, results.chosen⟩ ∧
    last = results.state

def Accounted (setup : Setup β ω σ) (parser : Parser β ω) (args : List Arg) (state : σ) (fuel : Nat)
    (known : Known ω) (last : σ) : Prop :=
  ∃ uses, AccountedBy setup parser args state fuel known last uses

/-- A parse ends in range and accounts for every argument, nothing is left over when it returns the
values of its parser, and the counts of positionals are those of the first match of the longest
prefix that has one. -/
theorem parse_accounts (setup : Setup β ω σ) :
    (∀ (parser : Parser β ω) (args : List Arg) (state : σ) (fuel : Nat), args.length < fuel →
      ∃ outcome, (parseKnown setup fuel parser args state).run = some outcome ∧
        ∀ known last, outcome = .ok (known, last) →
          Accounted setup parser args state fuel known last ∧
            (known.extras = [] → Delivered setup parser args)) ∧
      (∀ (parser : Parser β ω) (args : List Arg) (state : σ) (given : Namespace),
        (parseAloneChecked setup parser args state).run = some (.ok given) →
          Delivered setup parser args) ∧
      (∀ (top : Parser β ω) (args : List Arg) (state : σ) (parsed : Namespace × Chosen ω),
        (parse setup top args state).run = some (.ok parsed) → Delivered setup top args) ∧
      ∀ (nargs : List Nargs) (pattern : List Letter), ∃ counts,
        matchPartial nargs pattern = some counts ∧
          ((counts = [] ∧ ∀ size, 0 < size → size ≤ nargs.length →
            firstCounts (nargs.take size) pattern 0 = none) ∨
          ∃ size found, LongestMatch nargs pattern size found ∧
            counts = if pattern[found.sum]? = some .option then found.rdropWhile (· = 0)
              else found) := by
  refine ⟨?_, ?_, ?_, matchPartial_spec⟩
  · intro parser args state fuel hfuel
    obtain ⟨outcome, hrun, hvalue⟩ := @ends_parseKnown _ _ _ setup parser args state fuel hfuel
    refine ⟨outcome, hrun, ?_⟩
    rintro known last rfl
    refine ⟨?_, delivered_of_parseKnown hfuel hrun⟩
    obtain ⟨sub, run, uses, hless, -, haccounts, hknown⟩ := hvalue _ rfl
    obtain ⟨rfl, rfl⟩ := Prod.mk.inj hknown
    exact ⟨uses, sub, run.results, hless, haccounts.positions, haccounts.valid,
      ⟨_, haccounts.placed⟩, haccounts.results, by rw [haccounts.extras], rfl⟩
  · intro parser args state given h
    obtain ⟨⟨known, last⟩, hknown, hrest⟩ := run_bind_eq_ok_iff.mp h
    obtain ⟨done, hextras, -⟩ := run_bind_eq_ok_iff.mp hrest
    exact delivered_of_parseKnown (Nat.lt_succ_self _) hknown (extras_of_noExtras hextras)
  · intro top args state parsed h
    obtain ⟨⟨known, last⟩, hknown, hrest⟩ := run_bind_eq_ok_iff.mp h
    obtain ⟨chosen, -, hchecked⟩ := run_read_bind_eq_ok hrest
    obtain ⟨done, hextras, -⟩ := run_bind_eq_ok_iff.mp hchecked
    exact delivered_of_parseKnown (Nat.lt_succ_self _) hknown (extras_of_noExtras hextras)

def flagAction : Action Unit Unit where
  strings := ["-v".toList]
  dest := ['v']
  metavar := none
  kind := .flag
  required := false
  placed := fun h => absurd h (List.cons_ne_nil _ _)
  named := by simp

def flagParser : Parser Unit Unit where
  prog := ['p']
  actions := [flagAction]
  group := none
  grouped := by simp
  single := by decide

def plainSetup : Setup Unit Unit Unit where
  build := fun _ => flagParser
  declared := fun _ => flagParser
  usageText := fun _ => []
  helpText := fun _ => []
  versionText := fun text => text
  lossy := fun _ => []
  isPrintable := fun _ => true
  check := fun _ value state => (.ok value, state)

def flagCluster : Arg := ⟨"-vx".toList, utf8 "-vx".toList⟩

/-- What the parse of the cluster knows: the known letter is given, and the other one is an extra. -/
def flagKnown : Known Unit := ⟨⟨[(['v'], .flag)]⟩, ["-x".toList], none⟩

theorem parseKnown_cluster :
    (parseKnown plainSetup 2 flagParser [flagCluster] ()).run = some (.ok (flagKnown, ())) := by
  have hrest : Arg.new plainSetup.lossy (utf8 ['x']) = ⟨['x'], utf8 ['x']⟩ := by
    rw [Arg.new, CodePointString.asStr_utf8]
    rfl
  have hprefixed : prefixed plainSetup flagParser flagCluster =
      [⟨some 0, "-v".toList, false, some ⟨['x'], utf8 ['x']⟩⟩] := by
    rw [← hrest]
    rfl
  have hclassify : classify plainSetup flagParser [flagCluster] =
      ⟨[.option], [(0, [⟨some 0, "-v".toList, false, some ⟨['x'], utf8 ['x']⟩⟩])]⟩ := by
    have hoptional : optional plainSetup flagParser flagCluster =
        some (prefixed plainSetup flagParser flagCluster) := rfl
    have hadd : classify plainSetup flagParser [flagCluster] =
        (optional plainSetup flagParser flagCluster).elim ⟨[.value], []⟩ fun tuples =>
          ⟨[.option], [(0, tuples)]⟩ := rfl
    rw [hadd, hoptional, hprefixed]
    rfl
  rw [parseKnown, hclassify]
  rfl

/-- A parser without positionals uses each argument by itself. -/
theorem positions_ne_nil {uses : List Use} (h : uses.flatMap Use.placed = []) :
    ∀ use ∈ uses, use.positions ≠ [] := by
  intro use huse
  cases use with
  | option start actions valued rest => simp [Use.positions]
  | extra start => simp [Use.positions]
  | positional start count index separator =>
    exact absurd (List.flatMap_eq_nil_iff.mp h _ huse) (List.cons_ne_nil _ _)

/-- A cluster with a letter that no option has is used twice: it names its known letter and it is an
extra, so no account of the parse uses each argument either for actions or as an extra. -/
theorem parse_cluster_twice :
    (parseKnown plainSetup 2 flagParser [flagCluster] ()).run = some (.ok (flagKnown, ())) ∧
      ¬∃ uses, AccountedBy plainSetup flagParser [flagCluster] () 2 flagKnown () uses ∧
        ∀ use ∈ uses, use.deliveries [flagCluster] = [] ∨ use.extras [flagCluster] = [] := by
  refine ⟨parseKnown_cluster, ?_⟩
  rintro ⟨uses, ⟨sub, results, -, hpositions, -, hplaced, hactions, hknown, -⟩, hone⟩
  have hnonempty := positions_ne_nil (List.prefix_nil.mp hplaced)
  obtain ⟨use, rfl⟩ : ∃ use, uses = [use] := by
    cases uses with
    | nil => cases hpositions
    | cons first rest =>
      have hfirst := hnonempty first List.mem_cons_self
      cases rest with
      | nil => exact ⟨first, rfl⟩
      | cons second rest =>
        have hsecond := hnonempty second (by simp)
        have hlength := congrArg List.length hpositions
        have := List.length_pos_iff.mpr hfirst
        have := List.length_pos_iff.mpr hsecond
        simp only [List.flatMap_cons, List.length_append, List.length_range, List.length_cons,
          List.length_nil] at hlength
        omega
  obtain ⟨hgiven, hextras, -⟩ := Known.mk.inj hknown
  rw [List.flatMap_singleton] at hactions hextras
  have hcommands (index : Nat) : flagParser.IsCommands index = false := by cases index <;> rfl
  rw [subExtras_takeActions_of_free (fun entry _ => hcommands entry.1) hactions] at hextras
  rcases hone use List.mem_cons_self with hnone | hnone
  · rw [hnone] at hactions
    obtain rfl : Results.start flagParser () = results := by
      simpa [takeActions] using hactions
    exact absurd hgiven (by decide)
  · rw [hnone] at hextras
    exact absurd hextras (by decide)

end Agentless.Cli
