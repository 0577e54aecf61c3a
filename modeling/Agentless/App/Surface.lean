import Agentless.Library.Text

/-!
# The calls of the tool surface

The tools, their operations, and which calls show where code lives.
-/

namespace Agentless.App.Surface

structure Operation where
  name : Text
  localizes : Bool
deriving DecidableEq, Repr

/-- How a call to a tool selects its work. -/
inductive Calls where
  | single (localizes : Bool)
  | operations (table : List Operation)
deriving DecidableEq, Repr

structure Tool where
  name : Text
  calls : Calls
deriving DecidableEq, Repr

def operation (name : String) : Operation := ⟨name.toList, false⟩

def localizing (name : String) : Operation := ⟨name.toList, true⟩

/-- The tools in list order. -/
def TOOLS : List Tool :=
  [⟨"find_referencing_symbols".toList, .single true⟩,
    ⟨"history".toList, .single false⟩,
    ⟨"capabilities".toList, .single false⟩,
    ⟨"orient".toList, .operations [localizing "map"]⟩,
    ⟨"graph".toList, .operations [operation "communities", operation "cycles", operation "health",
      operation "diagram", localizing "path"]⟩,
    ⟨"symbols".toList, .operations [localizing "find", localizing "overview", localizing "expand",
      localizing "explain", operation "locate"]⟩,
    ⟨"read".toList, .operations [localizing "slice", operation "dir"]⟩]

/-- Whether a call with this operation shows where code lives. -/
def Tool.localizes (tool : Tool) (operation : Option Text) : Bool :=
  match tool.calls with
  | .single localizes => localizes
  | .operations table =>
    (operation.bind fun name => table.find? (·.name = name)).any (·.localizes)

end Agentless.App.Surface
