import Agentless.Library.Text

/-!
# The languages

The languages that the vendored grammars parse, the name each is stored under, and the family
whose code can name a language's symbols.
-/

namespace Agentless.Syntax

inductive Language where
  | bash | c | cpp | csharp | go | hcl | java | javascript | json | kotlin | lua
  | php | python | ruby | rust | scala | sql | swift | toml | tsx | typescript | yaml
deriving DecidableEq, Repr

namespace Language

def all : List Language :=
  [.bash, .c, .cpp, .csharp, .go, .hcl, .java, .javascript, .json, .kotlin, .lua,
    .php, .python, .ruby, .rust, .scala, .sql, .swift, .toml, .tsx, .typescript, .yaml]

def name : Language → Text
  | .bash => "bash".toList
  | .c => "c".toList
  | .cpp => "cpp".toList
  | .csharp => "csharp".toList
  | .go => "go".toList
  | .hcl => "hcl".toList
  | .java => "java".toList
  | .javascript => "javascript".toList
  | .json => "json".toList
  | .kotlin => "kotlin".toList
  | .lua => "lua".toList
  | .php => "php".toList
  | .python => "python".toList
  | .ruby => "ruby".toList
  | .rust => "rust".toList
  | .scala => "scala".toList
  | .sql => "sql".toList
  | .swift => "swift".toList
  | .toml => "toml".toList
  | .tsx => "tsx".toList
  | .typescript => "typescript".toList
  | .yaml => "yaml".toList

def fromName (text : Text) : Option Language :=
  all.find? (fun language => language.name == text)

/-- The first language, by name, of the family whose code can name this language's symbols. -/
def family : Language → Language
  | .tsx | .typescript => .javascript
  | .cpp => .c
  | .kotlin | .scala => .java
  | other => other

/-- What the ids of the language's symbols start with. -/
def idPrefix : Language → Text
  | .bash => "sh".toList
  | .c => "c".toList
  | .cpp => "cpp".toList
  | .csharp => "cs".toList
  | .go => "go".toList
  | .hcl => "hcl".toList
  | .java => "java".toList
  | .javascript => "js".toList
  | .json => "json".toList
  | .kotlin => "kt".toList
  | .lua => "lua".toList
  | .php => "php".toList
  | .python => "py".toList
  | .ruby => "rb".toList
  | .rust => "rs".toList
  | .scala => "scala".toList
  | .sql => "sql".toList
  | .swift => "swift".toList
  | .toml => "toml".toList
  | .tsx => "tsx".toList
  | .typescript => "ts".toList
  | .yaml => "yaml".toList

theorem fromName_name (language : Language) : fromName language.name = some language := by
  cases language <;> decide

theorem name_injective : Function.Injective name := by
  intro a b h
  have := congrArg fromName h
  simpa [fromName_name] using this

theorem colon_notMem_idPrefix (language : Language) : ':' ∉ language.idPrefix := by
  cases language <;> decide

end Language

end Agentless.Syntax
