import Agentless.Syntax.Language
import Agentless.Text.Word

/-!
# The facts of a scan

One scanned file as the graph builders read it: its symbols, its identifier occurrences, the
lines that declare a name and the symbol that owns a line.
-/

namespace Agentless.Graph

open Text Syntax

structure Symbol where
  name : Text
  line : Nat
  endLine : Nat
  nameLine : Nat
  parent : Text
  bases : List Text
  duplicateIndex : Nat
deriving DecidableEq, Repr

/-- The syntactic meaning of one identifier occurrence. -/
inductive Role where
  | reference | localName | binding | declaration | importName | attribute | moduleQualifier
  | moduleAttribute | keyword | builtin
deriving DecidableEq, Repr

structure Ref where
  name : Text
  line : Nat
  role : Role
  qualifier : Text
deriving DecidableEq, Repr

structure FileFacts where
  path : Text
  language : Language
  symbols : List Symbol
  refs : List Ref
deriving DecidableEq, Repr

/-- A data file's keys do not join the name graph. -/
def joinsNameGraph : Language → Bool
  | .json | .toml | .yaml => false
  | _ => true

def inNameGraph (file : FileFacts) : Bool := joinsNameGraph file.language

/-! ## Symbols and occurrences -/

def qualified (owner name : Text) : Text := if owner = [] then name else owner ++ '.' :: name

def Symbol.qualname (symbol : Symbol) : Text := qualified symbol.parent symbol.name

/-- The qualified name with its ordinal, when earlier symbols of the file share it. -/
def Symbol.idQualname (symbol : Symbol) : Text :=
  if symbol.duplicateIndex = 0 then symbol.qualname
  else symbol.qualname ++ '#' :: Nat.toDigits 10 (symbol.duplicateIndex + 1)

/-- The id of a symbol, which the file at `path` declares in `language`. -/
def stableId (language : Language) (path : Text) (symbol : Symbol) : Text :=
  language.idPrefix ++ ':' :: (path ++ "::".toList ++ symbol.idQualname)

def Ref.isResolvable (reference : Ref) : Bool :=
  reference.role = .reference || reference.role = .moduleAttribute

/-- Whether a symbol of the file has the name `name` and its name on `line`. -/
def holds (symbols : List Symbol) (name : Text) (line : Nat) : Bool :=
  symbols.any fun symbol => symbol.name = name && symbol.nameLine = line

/-- Whether the occurrence has the declaration role, or spells the name of a symbol on that
symbol's name line. -/
def declares (symbols : List Symbol) (reference : Ref) : Bool :=
  reference.role = .declaration || holds symbols reference.name reference.line

/-- The last name of a superclass text, or nothing for a keyword or an empty text. -/
def baseName (text : Text) : Text :=
  let head := strip (text.takeWhile (· ≠ '['))
  if head = [] || head.contains '=' then []
  else strip (((head.splitOn '.').getLast?).getD [])

/-! ## Owners of lines -/

/-- A later start is a deeper span; an equal start keeps the symbol declared first. -/
def wins (candidate : Symbol) (held : Option (Symbol × Nat)) : Bool :=
  held.all fun (symbol, _) => symbol.line < candidate.line

/-- The position of the innermost symbol whose span holds `line`. -/
def ownerPosition (symbols : List Symbol) (line : Nat) : Option Nat :=
  (symbols.zipIdx.foldl (fun held (symbol, position) =>
    if symbol.line ≤ line && line ≤ symbol.endLine && wins symbol held then some (symbol, position)
    else held) none).map Prod.snd

end Agentless.Graph

/-!
## Names, tiers and candidates

The one place where a name spelled in a file becomes an evidence tier and a candidate set: a
definition of the file itself, then what the file imports, then every definition of the name in
the file's language family.
-/

namespace Agentless.Graph

open Text Syntax Std

/-- How many re-export hops one alias chain may follow. -/
def maxImportHops : Nat := 32

/-! ## Definitions -/

/-- A symbol together with the file that declares it. -/
structure Definition where
  file : FileFacts
  symbol : Symbol
deriving DecidableEq, Repr

/-- The definitions of `name` across the name-graph files, in scan order. -/
def definitions (files : List FileFacts) (name : Text) : List Definition :=
  (files.filter inNameGraph).flatMap fun file =>
    (file.symbols.filter fun symbol => symbol.name = name).map fun symbol => ⟨file, symbol⟩

/-- The order by path, first line and qualified name. -/
def Definition.cmp (x y : Definition) : Ordering :=
  (compare x.file.path y.file.path).then
    ((compare x.symbol.line y.symbol.line).then (compare x.symbol.qualname y.symbol.qualname))

def Definition.le (x y : Definition) : Prop := (x.cmp y).isLE = true

instance : DecidableRel Definition.le := fun x y => inferInstanceAs (Decidable ((x.cmp y).isLE = true))

def ordered (found : List Definition) : List Definition := found.insertionSort Definition.le

/-- The runs of definitions of one file. -/
def groups (known : List Definition) : List (List Definition) :=
  known.splitBy fun x y => x.file.path = y.file.path

/-- The definitions of the groups whose file is wanted. -/
def fromGroups (known : List Definition) (wanted : Text → Bool) : List Definition :=
  ((groups known).filter fun run => run.head?.any fun entry => wanted entry.file.path).flatten

def group (known : List Definition) (path : Text) : List Definition :=
  fromGroups known fun held => held = path

/-! ## Scopes -/

/-- What a Rust module path names: a module file of this repository, or a module outside it. -/
inductive Qualified where
  | module (path : Text)
  | foreign
deriving DecidableEq, Repr

/-- One import statement and the repository file it reached. -/
structure ResolvedImport where
  module : Text
  line : Nat
  resolved : Option Text
deriving DecidableEq, Repr

/-- What one file's import statements bring in: whole modules, module objects, named members. -/
structure ImportScope where
  wholesale : TreeSet Text compare := {}
  moduleBindings : TreeMap Text (TreeSet Text compare) compare := {}
  named : TreeMap Text (TreeSet Text compare) compare := {}
  members : TreeMap Text (List (Text × Text)) compare := {}
  statements : List ResolvedImport := []
  qualified : TreeMap Text Qualified compare := {}

namespace ImportScope

variable (scope : ImportScope)

/-- Each import edge of the file at `path`; a file importing itself is no edge. -/
def resolvedEdges (path : Text) : List (Text × Nat × Text) :=
  scope.statements.filterMap fun row =>
    (row.resolved.filter (· ≠ path)).map fun target => (row.module, row.line, target)

def binds (name path : Text) : Bool :=
  scope.wholesale.contains path || (scope.named[name]?).any (·.contains path)

/-- An explicit import of the name outranks a star import, and a star import carries no private
name. -/
def reExports (member : Text) : List (Text × Text) :=
  match (scope.members[member]?).filter (· ≠ []) with
  | some explicit => explicit
  | none =>
    if member.head? = some '_' then []
    else scope.wholesale.toList.map fun module => (module, member)

end ImportScope

/-- The scanned files, each with its import scope. -/
structure Scopes where
  files : List FileFacts
  perFile : Nat → ImportScope

namespace Scopes

variable (scopes : Scopes)

/-- The scan position of the file at `path`; a repeated path answers with its last file. -/
def position (path : Text) : Option Nat :=
  ((scopes.files.zipIdx.filter fun (file, _) => file.path = path).getLast?).map Prod.snd

def get (path : Text) : Option ImportScope := (scopes.position path).map scopes.perFile

def languageOf (path : Text) : Option Language :=
  (scopes.position path).bind fun at_ => (scopes.files[at_]?).map (·.language)

end Scopes

/-! ## Resolving -/

/-- How strong the evidence behind one resolution is, strongest first. -/
inductive Tier where
  | sameFile | imported | unique | ambiguous
deriving DecidableEq, Repr, Ord

/-- The tier one name resolved at, and every candidate at that tier. -/
structure Resolution where
  tier : Tier
  candidates : List Definition
deriving DecidableEq, Repr

/-- A bare name cannot reach a class member, so only a top-level definition is in module scope. -/
def inModuleScope (candidate : Definition) (path : Text) : Bool :=
  candidate.file.path = path && candidate.symbol.parent = []

/-- Rust has no implicit receiver, so a Rust bare name reaches no method. -/
def bareNameReaches (spelled : Option Language) (candidate : Definition) : Bool :=
  spelled ≠ some .rust || candidate.symbol.parent = []

section Resolver

variable (scopes : Scopes)

/-- The definitions of `name`, ordered. -/
def known (name : Text) : List Definition := ordered (definitions scopes.files name)

def definedAt (member target : Text) : List Definition :=
  (group (known scopes member) target).filter fun entry => inModuleScope entry target

/-- What following imports has seen: the hops it took, and the first definition at each path and
line. -/
structure Following where
  visited : List (Text × Text) := []
  found : List Definition := []
deriving DecidableEq, Repr

def Following.extend (state : Following) (defined : List Definition) : Following :=
  defined.foldl (fun state entry =>
    if state.found.any (fun held =>
        held.file.path = entry.file.path && held.symbol.line = entry.symbol.line) then state
    else { state with found := state.found ++ [entry] }) state

/-- One hop: what it adds to the state, and the hops it leads to. -/
def hop (state : Following) (pair : Text × Text) : Following × List (Text × Text) :=
  if state.visited.contains pair then (state, [])
  else
    let defined := definedAt scopes pair.2 pair.1
    let state := { state with visited := pair :: state.visited }.extend defined
    if defined ≠ [] then (state, [])
    else (state, ((scopes.get pair.1).map fun onward => onward.reExports pair.2).getD [])

/-- The hops of one level in order, and the hops of the next level. -/
def hops (state : Following) (level : List (Text × Text)) : Following × List (Text × Text) :=
  level.foldl (fun (state, next) pair =>
    let (state, more) := hop scopes state pair
    (state, next ++ more)) (state, [])

/-- Breadth first over the hops: the queue holds each level before the next, and `depth` levels
may still follow this one. -/
def followLevels : Nat → Following → List (Text × Text) → Following
  | 0, state, level => (hops scopes state level).1
  | depth + 1, state, level =>
    let (state, next) := hops scopes state level
    followLevels depth state next

def follow (first : List (Text × Text)) : List Definition :=
  ordered (followLevels scopes (maxImportHops - 1) {} first).found

/-- The definitions that the file's `from x import` bindings of `name` reach. -/
def throughImports (name path : Text) : List Definition :=
  match scopes.get path with
  | none => []
  | some scope =>
    let members := (scope.members[name]?).getD []
    -- a Rust glob import also brings in what the globbed module re-exports
    let first := if members = [] && scopes.languageOf path = some .rust then
        scope.wholesale.toList.map fun module => (module, name)
      else members
    follow scopes first

/-- A local definition outranks an import, and an import outranks a name-only match. -/
def boundHere (known : List Definition) (name path : Text) : Option Resolution :=
  let sameFile := (group known path).filter fun entry => inModuleScope entry path
  if sameFile ≠ [] then some ⟨.sameFile, sameFile⟩
  else
    match scopes.get path with
    | none => none
    | some scope =>
      let spelled := scopes.languageOf path
      let named := (fromGroups known (scope.binds name)).filter (bareNameReaches spelled)
      if named ≠ [] then some ⟨.imported, named⟩ else none

/-- The definitions of `name` that a file in the language `spelled` can mean by the name alone. -/
def nameOnly (name : Text) (spelled : Option Language) : List Definition :=
  match spelled with
  | none => known scopes name
  | some language =>
    ((known scopes name).filter fun entry => entry.file.language.family = language.family).filter
      (bareNameReaches (some language))

/-- Resolves `name` as spelled in the file at `path`, or `none` when nothing defines it. -/
def resolve (name path : Text) : Option Resolution :=
  match boundHere scopes (known scopes name) name path with
  | some found => some found
  | none =>
    let followed := throughImports scopes name path
    if followed ≠ [] then some ⟨.imported, followed⟩
    else
      let found := nameOnly scopes name (scopes.languageOf path)
      match found.length with
      | 0 => none
      | 1 => some ⟨.unique, found⟩
      | _ => some ⟨.ambiguous, found⟩

/-- `qualifier.name`, only through the repository modules `qualifier` binds in this file. -/
def resolveModuleAttribute (name path qualifier : Text) : Option Resolution :=
  match scopes.get path with
  | none => none
  | some scope =>
    let targets := scope.moduleBindings[qualifier]?
    let direct := fromGroups (known scopes name) fun defining => targets.any (·.contains defining)
    let candidates := if direct = [] then
        follow scopes ((targets.map (·.toList)).getD [] |>.map fun module => (module, name))
      else direct
    if candidates ≠ [] then some ⟨.imported, candidates⟩ else none

/-- `module::name` binds through the module's file and its re-exports; a path whose walk stopped
falls back to the name. -/
def resolveQualified (name path qualifier : Text) : Option Resolution :=
  match (scopes.get path).bind fun scope => scope.qualified[qualifier]? with
  | some .foreign => none
  | none => resolve scopes name path
  | some (.module module) =>
    let defined := definedAt scopes name module
    let reached := if defined = [] then follow scopes [(module, name)] else defined
    if reached = [] then resolve scopes name path else some ⟨.imported, reached⟩

def resolveSite (reference : Ref) (path : Text) : Option Resolution :=
  if reference.role = .moduleAttribute then
    resolveModuleAttribute scopes reference.name path reference.qualifier
  else if reference.qualifier ≠ [] then
    resolveQualified scopes reference.name path reference.qualifier
  else resolve scopes reference.name path

/-- Each occurrence in `file` that binds a definition, with its resolution. -/
def resolvedSites (file : FileFacts) : List (Ref × Resolution) :=
  file.refs.filterMap fun reference =>
    if !reference.isResolvable || declares file.symbols reference then none
    else (resolveSite scopes reference file.path).map fun found => (reference, found)

end Resolver

end Agentless.Graph
