import Agentless.Library.Text

/-!
# Units

One function or method of a file, as the metrics measure it.
-/

namespace Agentless.Metrics

/-- One function or method with its qualified name, span, body key, cc, and SLOC. -/
structure Unit where
  qualname : Text
  startByte : Nat
  endByte : Nat
  startLine : Nat
  /-- The digest of the unit's token stream without its name. -/
  bodyKey : Bytes
  cc : Nat
  sloc : Nat
deriving DecidableEq, Repr

/-- One block whose copies are looked for. -/
structure Block where
  startLine : Nat
  endLine : Nat
  /-- The Type-2 key: identifiers and literals abstracted. -/
  key : Bytes
  /-- The exact key: every token as written. -/
  exact : Bytes
  function : Bool
  tokens : Nat
deriving DecidableEq, Repr

end Agentless.Metrics
