import Agentless.Cli.Parse

/-!
# Consuming the arguments

Values and options are consumed alternately until no option is left, then the last values. The
positionals that match the pattern take their arguments; what nothing takes is an extra.
-/

namespace Agentless.Cli

variable {β ω σ : Type}

structure Run (ω σ : Type) where
  options : List (Nat × List Tuple)
  /-- The positional actions not yet consumed, in declaration order. -/
  positionals : List Nat
  results : Results ω σ
  extras : List Text
deriving DecidableEq, Repr

/-- The actions that an option names with their values, the index after them, and the extras. -/
structure Taken where
  actions : List (Nat × List Arg)
  stop : Nat
  extras : List Text
deriving DecidableEq, Repr

section Consume

variable (setup : Setup β ω σ) (parser : Parser β ω)
  (parseSub : Parser β ω → List Arg → σ → Attempt Exit (Known ω × σ)) (args : List Arg)
  (pattern : List Letter)

def texts (start stop : Nat) : Option (List Text) :=
  (slice? args start stop).map (·.map Arg.text)

/-! ## Positionals -/

def nargs (index : Nat) : Option Nargs :=
  parser.actions[index]?.map fun action =>
    match action.kind with
    | .positional arity => .arity arity
    | _ => .parser

/-- The arguments hold the `--` that the parse strips from them: a subcommand strips a leading one,
and every other positional strips the first one it holds. -/
def stripsSeparator (nargs : Nargs) (pattern : List Letter) : Bool :=
  match nargs with
  | .parser => pattern.head? = some .separator
  | .arity _ => pattern.contains .separator

/-- The values of a positional: its arguments without the `--`. -/
def stripped (nargs : Nargs) (letters : List Letter) (values : List Arg) : List Arg :=
  if stripsSeparator nargs letters then values.eraseP (·.text = "--".toList) else values

/-- Each of the positionals takes its count of arguments. -/
def takeCounts (positionals : List Nat) (wanted : List Nargs) :
    List Nat → Nat → Nat → Results ω σ → Attempt Exit (Nat × Results ω σ)
  | [], _, start, results => pure (start, results)
  | count :: counts, position, start, results => do
    let index ← Attempt.read positionals[position]?
    let values ← Attempt.read (slice? args start (start + count))
    let mine ← Attempt.read wanted[position]?
    let letters ← Attempt.read (slice? pattern start (start + count))
    let results ← takeAction setup parser parseSub index (stripped mine letters values) results
    takeCounts positionals wanted counts (position + 1) (start + count) results

/-- The positionals that match the pattern from `start` take their arguments. -/
def consumePositionals (start : Nat) (run : Run ω σ) : Attempt Exit (Nat × Run ω σ) := do
  let wanted ← Attempt.read (run.positionals.mapM (nargs parser))
  let rest ← Attempt.read (slice? pattern start pattern.length)
  let counts ← Attempt.read (matchPartial wanted rest)
  let (stop, results) ←
    takeCounts setup parser parseSub args pattern run.positionals wanted counts 0 start run.results
  let left ← Attempt.read (slice? run.positionals counts.length run.positionals.length)
  pure (stop, { run with positionals := left, results := results })

/-! ## Options -/

def takesValue (index : Nat) : Option Bool := parser.actions[index]?.map (·.kind.takesValue)

/-- The count of values the action at `index` takes from `start` on: one for a value option. -/
def matchArgument (index start : Nat) : Attempt Exit Nat := do
  if ← Attempt.read (takesValue parser index) then
    if pattern[start]? = some .value then pure 1
    else actionError setup parser index "expected one argument".toList
  else pure 0

/-- After a short flag that takes no value, the next character of the same argument names the next
short option. -/
def nextShort (index : Nat) (reading : Tuple) (value : Arg) : Attempt Exit (Option Tuple) :=
  if (utf8 reading.option)[1]? = some 0x2d ∨ value.text = [] ∨ reading.equals = true ∨
      value.text.head? = some '-' then
    actionError setup parser index
      ("ignored explicit argument ".toList ++ quotedText setup value.text)
  else
    let option := ['-', value.text.headD '\x00']
    let rest := value.text.drop 1
    match parser.option option with
    | none => pure none
    | some next =>
      pure (some (
        if rest = [] then ⟨some next, option, false, none⟩
        else if rest.head? = some '=' then
          ⟨some next, option, true, some (Arg.new setup.lossy (utf8 (rest.drop 1)))⟩
        else ⟨some next, option, false, some (Arg.new setup.lossy (utf8 rest))⟩))

/-- The actions that the option at `start` names, with their values, and the index after them. -/
def matchOptional (start : Nat) : Nat → Tuple → Taken → Attempt Exit Taken
  | 0, _, _ => none
  | fuel + 1, reading, taken =>
    match reading.action with
    | none => do
      let arg ← Attempt.read args[start]?
      pure { taken with stop := start + 1, extras := taken.extras ++ [arg.text] }
    | some index =>
      match reading.explicit with
      | none => do
        let count ← matchArgument setup parser pattern index (start + 1)
        let values ← Attempt.read (slice? args (start + 1) (start + 1 + count))
        pure { taken with actions := taken.actions ++ [(index, values)], stop := start + 1 + count }
      | some value => do
        if ← Attempt.read (takesValue parser index) then
          pure { taken with actions := taken.actions ++ [(index, [value])], stop := start + 1 }
        else do
          let taken := { taken with actions := taken.actions ++ [(index, [])] }
          match ← nextShort setup parser index reading value with
          | none =>
            pure { taken with stop := start + 1, extras := taken.extras ++ ['-' :: value.text] }
          | some next => matchOptional start fuel next taken

/-- Each letter of a cluster takes one round. -/
def roundsOf (reading : Tuple) : Nat := (reading.explicit.map (·.text.length)).getD 0 + 1

def takeActions (actions : List (Nat × List Arg)) (results : Results ω σ) :
    Attempt Exit (Results ω σ) :=
  actions.foldlM
    (fun results (index, values) => takeAction setup parser parseSub index values results) results

def consumeOptional (start : Nat) (run : Run ω σ) : Attempt Exit (Nat × Run ω σ) := do
  let tuples := (run.options.lookup start).getD []
  let run := { run with options := run.options.filter (·.1 ≠ start) }
  match tuples with
  | [] => pure (start + 1, run)
  | [first] => do
    let taken ←
      matchOptional setup parser args pattern start (roundsOf first) first ⟨[], 0, run.extras⟩
    let results ← takeActions setup parser parseSub taken.actions run.results
    pure (taken.stop, { run with results := results, extras := taken.extras })
  | _ => do
    let shown ← Attempt.read args[start]?
    throw (error setup parser
      ("ambiguous option: ".toList ++ shown.text ++ " could match ".toList ++
        ", ".toList.intercalate (tuples.map Tuple.option)))

/-! ## The whole parse -/

/-- The values before the option at `next`: the positionals take what they match, and the rest
become extras. -/
def consumeValues (start next : Nat) (run : Run ω σ) : Attempt Exit (Option Nat × Run ω σ) := do
  if start = next then pure (none, run)
  else do
    let (stop, run) ← consumePositionals setup parser parseSub args pattern start run
    if start < stop then pure (some stop, run)
    else do
      let more ← Attempt.read (texts args start next)
      pure (none, { run with extras := run.extras ++ more })

/-- The first option from `start` on. -/
def nextOption (start : Nat) (run : Run ω σ) : Option Nat :=
  (run.options.find? fun entry => start ≤ entry.1).map Prod.fst

/-- Consumes values and options alternately until no option is left. -/
def consumeOptions : Nat → Nat → Run ω σ → Attempt Exit (Nat × Run ω σ)
  | 0, _, _ => none
  | fuel + 1, start, run =>
    match nextOption start run with
    | none => pure (start, run)
    | some next => do
      match ← consumeValues setup parser parseSub args pattern start next run with
      | (some stop, run) => consumeOptions fuel stop run
      | (none, run) => do
        let (stop, run) ← consumeOptional setup parser parseSub args pattern next run
        consumeOptions fuel stop run

/-- A round gets on by one argument at least. -/
def consumeAll (run : Run ω σ) : Attempt Exit (Run ω σ) := do
  let (start, run) ← consumeOptions setup parser parseSub args pattern (args.length + 1) 0 run
  let (stop, run) ← consumePositionals setup parser parseSub args pattern start run
  let more ← Attempt.read (texts args stop args.length)
  pure { run with extras := run.extras ++ more }

end Consume

section Whole

variable (setup : Setup β ω σ)

/-- Every required action the run did not see, in declaration order. -/
def missing (parser : Parser β ω) (seen : List Bool) : Option (List Text) :=
  (parser.actions.zipIdx.filterMapM fun (action, index) => do
    if action.required then
      if ← seen[index]? then some none else some (some action.name)
    else some none)

def checkRequired (parser : Parser β ω) (results : Results ω σ) : Attempt Exit PUnit := do
  let missing ← Attempt.read (missing parser results.seen)
  if missing ≠ [] then
    throw (error setup parser
      ("the following arguments are required: ".toList ++ ", ".toList.intercalate missing))
  else
    match parser.group.filter Group.required with
    | none => pure ()
    | some group => do
      match ← Attempt.read (firstUsed results.used group.members) with
      | some _ => pure ()
      | none => do
        let names ← Attempt.read
          (group.members.mapM fun member => parser.actions[member]?.map Action.name)
        throw (error setup parser
          ("one of the arguments ".toList ++ [' '].intercalate names ++ " is required".toList))

def Results.start (parser : Parser β ω) (state : σ) : Results ω σ :=
  ⟨{}, List.replicate parser.actions.length false, List.replicate parser.actions.length false, [],
    none, state⟩

/-- A parse of the arguments by a parser. A nested parse is given fewer arguments, so the rounds run
out only when there are no more than arguments. -/
def parseKnown : Nat → Parser β ω → List Arg → σ → Attempt Exit (Known ω × σ)
  | 0, _, _, _ => none
  | fuel + 1, parser, args, state => do
    let classified := classify setup parser args
    let run : Run ω σ :=
      ⟨classified.options, parser.positionals, Results.start parser state, []⟩
    let run ← consumeAll setup parser (parseKnown fuel) args classified.pattern run
    checkRequired setup parser run.results
    pure (⟨run.results.given, run.extras ++ run.results.subExtras, run.results.chosen⟩,
      run.results.state)

def noExtras (parser : Parser β ω) (extras : List Text) : Attempt Exit PUnit :=
  if extras = [] then pure ()
  else throw (error setup parser ("unrecognized arguments: ".toList ++ [' '].intercalate extras))

/-- The values of a parser that has no commands. -/
def parseAloneChecked (parser : Parser β ω) (args : List Arg) (state : σ) :
    Attempt Exit Namespace := do
  let (known, _) ← parseKnown setup (args.length + 1) parser args state
  noExtras setup parser known.extras
  pure known.given

/-- The values and the command of the top parser, which requires one. -/
def parse (top : Parser β ω) (args : List Arg) (state : σ) :
    Attempt Exit (Namespace × Chosen ω) := do
  let (known, _) ← parseKnown setup (args.length + 1) top args state
  let chosen ← Attempt.read known.chosen
  noExtras setup top known.extras
  pure (known.given, chosen)

end Whole

end Agentless.Cli
