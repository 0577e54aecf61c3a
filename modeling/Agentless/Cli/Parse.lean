import Agentless.Cli.Nargs
import Agentless.Library.Find
import Agentless.Text.Quoted

/-!
# Parser declarations

What a command line is parsed against: options with their strings, positionals with their arities,
and commands with parsers of their own, which may be nested to any depth.
-/

namespace Agentless.Cli

/-- An argument: its text for matching and messages, and its bytes for paths. -/
structure Arg where
  text : Text
  raw : Bytes
deriving DecidableEq, Repr

inductive Value where
  | flag
  | text (arg : Arg)
  | names (names : List Text)
  | list (args : List Arg)
  | int (value : Int)
deriving DecidableEq, Repr

/-- A parser is built by hand or from its read operation. -/
inductive Form (β ω : Type) where
  | built (build : β)
  | read (op : ω)
deriving DecidableEq, Repr

structure Command (β ω : Type) where
  name : Text
  form : Form β ω
deriving DecidableEq, Repr

inductive Kind (β ω : Type) where
  | help
  | flag
  | value (convert : Arg → Except Text Value) (choices : List Text) (repeated : Bool)
  | positional (arity : Arity)
  | commands (commands : List (Command β ω))
  | version (text : Text)

variable {β ω : Type}

/-- The kinds of an action without option strings. -/
def Kind.Placed : Kind β ω → Prop
  | .positional _ => True
  | .commands _ => True
  | _ => False

def Kind.commands? : Kind β ω → Option (List (Command β ω))
  | .commands listed => some listed
  | _ => none

theorem Kind.commands?_eq_some {kind : Kind β ω} {commands : List (Command β ω)} :
    kind.commands? = some commands ↔ kind = .commands commands := by
  cases kind <;> simp [Kind.commands?]

def Kind.takesValue : Kind β ω → Bool
  | .value .. => true
  | _ => false

/-- An action has option strings unless it is a positional or the subcommand. -/
structure Action (β ω : Type) where
  strings : List Text
  dest : Text
  metavar : Option Text
  kind : Kind β ω
  required : Bool
  placed : strings = [] → kind.Placed
  named : strings ≠ [] → ∀ commands, kind ≠ .commands commands

/-- The name an error message gives the action. -/
def Action.name (action : Action β ω) : Text :=
  if action.strings = [] then action.metavar.getD action.dest else ['/'].intercalate action.strings

/-- A mutually exclusive group: consecutive actions, of which a run may name at most one. -/
structure Group where
  start : Nat
  stop : Nat
  required : Bool

def Group.members (group : Group) : List Nat := List.range' group.start (group.stop - group.start)

/-- A parser has one subcommand at most, and the members of its group are actions. -/
structure Parser (β ω : Type) where
  prog : Text
  actions : List (Action β ω)
  group : Option Group
  grouped : ∀ members ∈ group, members.stop ≤ actions.length
  single : (actions.filter fun action => action.kind.commands?.isSome).length ≤ 1

namespace Parser

variable (parser : Parser β ω)

/-- Each option string with its action, in declaration order. -/
def optionStrings : List (Nat × Text) :=
  parser.actions.zipIdx.flatMap fun (action, index) => action.strings.map (index, ·)

def option (text : Text) : Option Nat :=
  (parser.optionStrings.find? (·.2 = text)).map Prod.fst

/-- The other members of the mutually exclusive group of `index`, in group order. -/
def conflicts (index : Nat) : List Nat :=
  let members := (parser.group.map Group.members).getD []
  members.filter fun other => members.contains index ∧ other ≠ index

/-- The positional actions, in declaration order. -/
def positionals : List Nat :=
  (List.range parser.actions.length).filter fun index =>
    parser.actions[index]?.any (·.strings.isEmpty)

end Parser

/-- The values that one parser's run set, by destination. -/
structure Namespace where
  values : List (Text × Value) := []
deriving DecidableEq, Repr

namespace Namespace

variable (given : Namespace)

def set (dest : Text) (value : Value) : Namespace :=
  ⟨given.values.filter (·.1 ≠ dest) ++ [(dest, value)]⟩

def get (dest : Text) : Option Value := (given.values.find? (·.1 = dest)).map Prod.snd

/-- Every value of a list. -/
def list (dest : Text) : List Arg :=
  match given.get dest with
  | some (.list args) => args
  | _ => []

def append (dest : Text) (arg : Arg) : Namespace :=
  given.set dest (.list (given.list dest ++ [arg]))

end Namespace

/-- The command a parse chose. A hand-built command names its path from the top. -/
inductive Chosen (ω : Type) where
  | ported (path : List Text) (given : Namespace)
  | read (op : ω) (given : Namespace)
deriving DecidableEq, Repr

/-- A parse that ends the run: a text for stdout, or a usage error for stderr. -/
inductive Exit where
  | help (text : Text)
  | usage (text : Text)
deriving DecidableEq, Repr

/-- What a parse is given besides its parser: the parsers of the commands, the texts it prints, the
reading of bytes that are not UTF-8, the printable characters, and the check of a converted value,
whose own state runs along. -/
structure Setup (β ω σ : Type) where
  build : β → Parser β ω
  declared : ω → Parser β ω
  usageText : Parser β ω → Text
  helpText : Parser β ω → Text
  versionText : Text → Text
  lossy : Bytes → Text
  isPrintable : Nat → Bool
  check : Text → Value → σ → Except Text Value × σ

variable {σ : Type}

def Command.parser (setup : Setup β ω σ) (command : Command β ω) : Parser β ω :=
  match command.form with
  | .built build => setup.build build
  | .read op => setup.declared op

/-- The text of the bytes, with replacements where they are not UTF-8. -/
def Arg.new (lossy : Bytes → Text) (raw : Bytes) : Arg :=
  ⟨(CodePointString.mk raw).asStr.getD (lossy raw), raw⟩

/-- The part after the first `=`. -/
def Arg.afterEquals (lossy : Bytes → Text) (arg : Arg) : Arg :=
  Arg.new lossy ((arg.raw.dropWhile (· ≠ 0x3d)).drop 1)

@[simp] theorem Arg.text_new_utf8 (lossy : Bytes → Text) (text : Text) :
    (Arg.new lossy (utf8 text)).text = text := by
  have hread : (CodePointString.mk (utf8 text)).asStr = some text :=
    CodePointString.asStr_eq_some_iff.mpr rfl
  rw [Arg.new, hread]
  rfl

end Agentless.Cli

/-!
## The parse of a command line

Each argument is classified as an option or a value, then the options and the positionals are
consumed from left to right. A subcommand takes everything after its name and has it parsed by its
own parser.
-/

namespace Agentless.Cli

/-- One reading of an option argument: the action it names, the option string, whether `=` gave the
value, and the value written in the same argument. -/
structure Tuple where
  action : Option Nat
  option : Text
  equals : Bool
  explicit : Option Arg
deriving DecidableEq, Repr

variable {β ω σ : Type}

/-! ## Classification -/

/-- `-` and then digits, with an optional decimal point; one final newline is allowed. -/
def negativeNumber (text : Text) : Bool :=
  let text := if text.getLast? = some '\n' then text.dropLast else text
  match text with
  | '-' :: number =>
    match Find.splitOnce ['.'] number with
    | some (whole, fraction) =>
      whole.all Char.isDigit && !fraction.isEmpty && fraction.all Char.isDigit
    | none => !number.isEmpty && number.all Char.isDigit
  | _ => false

section Classify

variable (setup : Setup β ω σ) (parser : Parser β ω)

/-- The option strings that `arg` abbreviates. A single-dash argument also reads as its first two
characters followed by a value. -/
def prefixed (arg : Arg) : List Tuple :=
  let split := Find.splitOnce ['='] arg.text
  let start := (split.map Prod.fst).getD arg.text
  let explicit := split.map fun _ => arg.afterEquals setup.lossy
  if "--".toList.isPrefixOf arg.text then
    (parser.optionStrings.filter fun (_, s) => start.isPrefixOf s).map fun (i, s) =>
      ⟨some i, s, explicit.isSome, explicit⟩
  else
    parser.optionStrings.filterMap fun (i, s) =>
      if s = arg.text.take 2 then
        some ⟨some i, s, false, some (Arg.new setup.lossy (utf8 (arg.text.drop 2)))⟩
      else if start.isPrefixOf s then some ⟨some i, s, explicit.isSome, explicit⟩
      else none

/-- The readings of `arg` as an option, or nothing when it is a value. -/
def optional (arg : Arg) : Option (List Tuple) :=
  if arg.text.head? ≠ some '-' then none
  else
    match parser.option arg.text with
    | some action => some [⟨some action, arg.text, false, none⟩]
    | none =>
      if arg.text.length = 1 then none
      else
        match (Find.splitOnce ['='] arg.text).bind fun (name, _) =>
            (parser.option name).map (name, ·) with
        | some (name, action) =>
          some [⟨some action, name, true, some (arg.afterEquals setup.lossy)⟩]
        | none =>
          if prefixed setup parser arg ≠ [] then some (prefixed setup parser arg)
          else if negativeNumber arg.text ∨ ' ' ∈ arg.text then none
          else some [⟨none, arg.text, false, none⟩]

/-- The pattern of the command line, and the readings of its options by their positions. -/
structure Classified where
  pattern : List Letter
  options : List (Nat × List Tuple)
deriving DecidableEq, Repr

/-- Every argument after the `--` is a value. -/
def Classified.add (found : Classified) (arg : Arg) : Classified :=
  if .separator ∈ found.pattern then { found with pattern := found.pattern ++ [.value] }
  else if arg.text = "--".toList then { found with pattern := found.pattern ++ [.separator] }
  else
    match optional setup parser arg with
    | some tuples =>
      ⟨found.pattern ++ [.option], found.options ++ [(found.pattern.length, tuples)]⟩
    | none => { found with pattern := found.pattern ++ [.value] }

def classify (args : List Arg) : Classified :=
  args.foldl (Classified.add setup parser) ⟨[], []⟩

end Classify

/-! ## Actions -/

/-- What the actions have stored, and which were seen and which were named. -/
structure Results (ω σ : Type) where
  given : Namespace
  seen : List Bool
  used : List Bool
  subExtras : List Text
  chosen : Option (Chosen ω)
  state : σ
deriving DecidableEq, Repr

structure Known (ω : Type) where
  given : Namespace
  extras : List Text
  chosen : Option (Chosen ω)
deriving DecidableEq, Repr

section Actions

variable (setup : Setup β ω σ) (parser : Parser β ω)

def error (message : Text) : Exit :=
  .usage (setup.usageText parser ++ parser.prog ++ ": error: ".toList ++ message ++ ['\n'])

def actionError {α : Type} (index : Nat) (message : Text) : Attempt Exit α := do
  let action ← Attempt.read parser.actions[index]?
  throw (error setup parser ("argument ".toList ++ action.name ++ ": ".toList ++ message))

def quotedText (text : Text) : Text := CodePointString.quoted setup.isPrintable ⟨utf8 text⟩

/-- A positional of one value keeps its text; one of any count keeps the list; an optional one that
took nothing keeps no value. -/
def positionalValue (arity : Arity) (values : List Arg) : Option Value :=
  match arity, values with
  | .one, [one] | .optional, [one] => some (.text one)
  | .optional, [] => none
  | _, values => some (.list values)

def checkChoice (index : Nat) (text : Text) (choices : List Text) (value : Value) :
    Attempt Exit (Option Value) :=
  if choices = [] ∨ text ∈ choices then pure (some value)
  else
    actionError setup parser index
      ("invalid choice: ".toList ++ quotedText setup text ++ " (choose from ".toList ++
        ", ".toList.intercalate choices ++ [')'])

/-- The value of an action: its conversion and the parse's check, then its choices. -/
def convert (index : Nat) (values : List Arg) (state : σ) : Attempt Exit (Option Value × σ) := do
  let action ← Attempt.read parser.actions[index]?
  match action.kind with
  | .help | .flag | .version _ => pure (some .flag, state)
  | .positional arity => pure (positionalValue arity values, state)
  | .value convert choices _ => do
    let first ← Attempt.read values[0]?
    match convert first with
    | .error message => actionError setup parser index message
    | .ok value =>
      match setup.check action.dest value state with
      | (.error message, _) => actionError setup parser index message
      | (.ok value, state) => do
        let value ← checkChoice setup parser index first.text choices value
        pure (value, state)
  | .commands commands => do
    let first ← Attempt.read values[0]?
    let value ← checkChoice setup parser index first.text (commands.map Command.name) (.text first)
    pure (value, state)

/-- The first of the actions that was used. -/
def firstUsed (used : List Bool) : List Nat → Option (Option Nat)
  | [] => some none
  | other :: others => do
    if ← used[other]? then some (some other) else firstUsed used others

/-- An action that is named, or takes an argument, is used; no other of its group may be. -/
def use (index : Nat) (values : List Arg) (used : List Bool) : Attempt Exit (List Bool) := do
  let action ← Attempt.read parser.actions[index]?
  if action.strings ≠ [] ∨ values ≠ [] then do
    let used ← Attempt.read (List.set? used index true)
    match ← Attempt.read (firstUsed used (parser.conflicts index)) with
    | some other => do
      let other ← Attempt.read parser.actions[other]?
      actionError setup parser index ("not allowed with argument ".toList ++ other.name)
    | none => pure used
  else pure used

/-- The command that the parse of its arguments chose: a nested subcommand's choice with the
command's name first, else the command itself with the values of its own parser. -/
def chosen (command : Command β ω) (known : Known ω) : Chosen ω :=
  match command.form, known.chosen with
  | .read op, _ => .read op known.given
  | .built _, some (.ported path given) => .ported (command.name :: path) given
  | .built _, some (.read op given) => .read op given
  | .built _, none => .ported [command.name] known.given

variable (parseSub : Parser β ω → List Arg → σ → Attempt Exit (Known ω × σ))

def choose (commands : List (Command β ω)) (values : List Arg) (results : Results ω σ) :
    Attempt Exit (Results ω σ) := do
  let name ← Attempt.read values[0]?
  match commands.find? (·.name = name.text) with
  | none => pure results
  | some command => do
    let rest ← Attempt.read (slice? values 1 values.length)
    let (known, state) ← parseSub (command.parser setup) rest results.state
    pure { results with
      subExtras := known.extras
      chosen := some (chosen command known)
      state := state }

def takeAction (index : Nat) (values : List Arg) (results : Results ω σ) :
    Attempt Exit (Results ω σ) := do
  let seen ← Attempt.read (List.set? results.seen index true)
  let (value, state) ← convert setup parser index values results.state
  let used ← use setup parser index values results.used
  let action ← Attempt.read parser.actions[index]?
  let results := { results with seen := seen, used := used, state := state }
  match action.kind, value with
  | .help, _ => throw (.help (setup.helpText parser))
  | .version text, _ => throw (.help (setup.versionText text))
  | .commands commands, _ => choose setup parseSub commands values results
  | .value _ _ true, some (.text arg) =>
    pure { results with given := results.given.append action.dest arg }
  | _, some value => pure { results with given := results.given.set action.dest value }
  | _, none => pure results

end Actions

end Agentless.Cli
