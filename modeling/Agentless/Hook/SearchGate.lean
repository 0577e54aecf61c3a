import Agentless.App.Surface
import Agentless.Hook.Search
import Agentless.Json.Write
import Agentless.Library.Program

/-!
# The search gate

gate-check holds a broad text search until the session has made a localizing call, and gate-mark
records that call in a file named for the session. The two share nothing but the directory of these
files, so each is a program of calls on the directory and on the log.
-/

namespace Agentless.Hook.Search

open Json

/-! ## The directory -/

inductive FileCall where
  | createDir
  | isPrivate
  | stat (name : Text)
  | createNew (name : Text)
  | createNamed (start : Text)
  | write (name : Text) (bytes : Bytes)
  | rename (source target : Text)
  | remove (name : Text)
  | append (line : Bytes)
deriving DecidableEq

/-- Why a path has no metadata: nothing is there, or the call fails. -/
inductive Unread where
  | missing
  | failed
deriving DecidableEq

/-- A removal tells whether a file was there, and a file with a random name tells its name. -/
abbrev FileCall.Answer : FileCall → Type
  | isPrivate => Except Unread Bool
  | stat _ => Except Suppressed Bool
  | createNamed _ => Option Text
  | remove _ => Option Bool
  | _ => Bool

/-- The directory, the names of its files, and the log. A directory that a hook makes is private,
and one that was there before it may be another user's or open to others. -/
structure Store where
  present : Bool := false
  isPrivate : Bool := true
  files : List Text := []
  log : List Bytes := []
deriving DecidableEq

/-- What the system decides about one call. -/
structure Choice where
  fails : Bool := false
  random : Text := []

/-- Every call is atomic, and a call that fails changes nothing. -/
def handle (choice : Choice) (store : Store) : (call : FileCall) → call.Answer × Store
  | .createDir =>
    (!choice.fails, if choice.fails then store
      else { store with present := true, isPrivate := !store.present || store.isPrivate })
  | .isPrivate =>
    (if choice.fails then .error .failed
      else if store.present then .ok store.isPrivate else .error .missing, store)
  | .stat name =>
    (if choice.fails then .error .suppressed else .ok (store.files.contains name), store)
  | .createNew name =>
    if choice.fails || !store.present || store.files.contains name then (false, store)
    else (true, { store with files := name :: store.files })
  | .createNamed start =>
    let name := start ++ choice.random
    if choice.fails || !store.present || store.files.contains name then (none, store)
    else (some name, { store with files := name :: store.files })
  | .write _ _ => (!choice.fails, store)
  | .rename source target =>
    if choice.fails || !store.files.contains source then (false, store)
    else (true, { store with files := target :: store.files.filter (· ≠ source) })
  | .remove name =>
    if choice.fails then (none, store)
    else (some (store.files.contains name), { store with files := store.files.filter (· ≠ name) })
  | .append line =>
    (!choice.fails, if choice.fails then store else { store with log := store.log ++ [line] })

abbrev Steps := Program FileCall FileCall.Answer

/-- A program that can stop with a suppressed error. -/
abbrev Hooked := ExceptT Suppressed Steps

def ask (call : FileCall) : Steps call.Answer := Program.perform call

def known {α : Type} (held : Except Suppressed α) : Hooked α := ExceptT.mk (pure held)

def orSuppressed (done : Steps Bool) : Hooked Unit := do
  if !(← done) then throw .suppressed

/-! ## Files -/

def writeNewFile (name : Text) (bytes : Bytes) : Steps Bool := do
  if !(← ask (.createNew name)) then return false
  ask (.write name bytes)

def siblingPrefix (name : Text) : Text := '.' :: name ++ ['.']

/-- Replaces a file in one rename. The temporary file is removed when a step fails. -/
def replaceFile (target : Text) (bytes : Bytes) : Steps Bool := do
  if !(← ask .createDir) then return false
  match ← ask (.createNamed (siblingPrefix target)) with
  | none => return false
  | some temporary =>
    if ← ask (.write temporary bytes) then
      if ← ask (.rename temporary target) then return true
    let _ ← ask (.remove temporary)
    return false

/-! ## Markers -/

section Markers

variable {φ : Type} (f64 : F64 φ) (sha256Hex : Bytes → Text)

def markerName (session : Text) : Text := sha256Hex (utf8 session) ++ ".json".toList

/-- A session id with a lone surrogate has no UTF-8 bytes. -/
def path (session : CodePointString) : Except Suppressed Text :=
  match session.asStr with
  | some text => .ok (markerName sha256Hex text)
  | none => .error .suppressed

/-- A directory without metadata is not trusted. -/
def trusted : Steps Bool := return (← ask .isPrivate) = .ok true

def existsMarker (session : CodePointString) : Hooked Bool := do
  let path ← known (path sha256Hex session)
  if !(← trusted) then return false
  ExceptT.mk (ask (.stat path))

def probeName (pid : Nat) : Text := ".write-probe-".toList ++ Nat.toDigits 10 pid

/-- Proves that a marker can be written before the gate enforces its absence. -/
def storageReady (pid : Nat) : Steps Bool := do
  if !(← ask .createDir) then return false
  if !(← trusted) then return false
  if !(← writeNewFile (probeName pid) []) then return false
  return (← ask (.remove (probeName pid))) = some true

def receipt (reason : Text) (tool : JsonValue φ) : JsonValue φ :=
  .object [(⟨utf8 "version".toList⟩, .int (utf8 "2".toList)),
    (⟨utf8 "reason".toList⟩, .str ⟨utf8 reason⟩), (⟨utf8 "tool".toList⟩, tool)]

/-- The directory comes first: it is created before the session id is looked at. -/
def writeMarker (session : CodePointString) (reason : Text) (tool : JsonValue φ) : Hooked Unit := do
  orSuppressed (ask .createDir)
  let path ← known (path sha256Hex session)
  orSuppressed trusted
  orSuppressed (replaceFile path (valueText f64 (receipt reason tool)))

end Markers

/-! ## The log -/

section Log

variable {φ : Type} (f64 : F64 φ)

abbrev Entry (φ : Type) := List (String × JsonValue φ)

def held (found : Option (JsonValue φ)) : JsonValue φ := found.getD .null

def textValue (text : Text) : JsonValue φ := .str ⟨utf8 text⟩

/-- The keys are plain names, so each is its own JSON text between quotes. -/
def logLine (entry : Entry φ) : Bytes :=
  utf8 "\x7b".toList ++ (utf8 ", ".toList).intercalate (entry.map fun (name, item) =>
    utf8 ('"' :: name.toList ++ "\": ".toList) ++ valueText f64 item) ++ utf8 "\x7d\n".toList

/-- What one run reads from its process: whether a log file is named, the start-up directory, the
time, the process id, and the files that the payload names. -/
structure Gate (φ : Type) where
  logs : Bool
  cwd : Option Bytes
  now : φ
  pid : Nat
  disk : Disk
  isFile : Bytes → Except Suppressed Bool

variable (gate : Gate φ)

/-- A failed append is suppressed, the deny included. -/
def appendEntry (entry : Entry φ) : Hooked Unit :=
  if gate.logs then orSuppressed (ask (.append (logLine f64 entry))) else pure ()

end Log

/-! ## gate-check -/

structure Verdict where
  denied : Bool
  reason : String
deriving DecidableEq, Repr

def allowed (reason : String) : Verdict := ⟨false, reason⟩

def denied (reason : String) : Verdict := ⟨true, reason⟩

section Check

variable {φ : Type} (f64 : F64 φ) (sha256Hex : Bytes → Text) (gate : Gate φ)

/-- The directory that a relative operand resolves against. -/
def payloadCwd (fields : Fields φ) : Except Suppressed Base :=
  match textField fields "cwd".toList with
  | some cwd => .ok (.text cwd)
  | none =>
    match gate.cwd with
    | some cwd => .ok (.path cwd)
    | none => .error .suppressed

/-- A search whose path names one existing file has localized itself already. -/
def exactFile (fields : Fields φ) (input : Option (Fields φ)) : Except Suppressed Bool :=
  match input.bind fun input => textField input "path".toList with
  | none => .ok false
  | some path => do
    match joined (← payloadCwd gate fields) path with
    | none => return false
    | some joined =>
      if joined.contains 0 then return false
      gate.isFile (StdPath.ofComponents (StdPath.components joined))

def decideNative (fields : Fields φ) (session : CodePointString) (tool : Text) : Hooked Verdict := do
  let input := objectField fields "tool_input".toList
  if (input.bind fun input => textField input "pattern".toList).isNone then
    return allowed "malformed_payload"
  if ← existsMarker sha256Hex session then return allowed "already_unlocked"
  if tool = "Grep".toList then
    if ← known (exactFile gate fields input) then return allowed "exact_file_scope"
  if !(← storageReady gate.pid) then return allowed "marker_storage_unavailable"
  return denied (if tool = "Glob".toList then "glob_before_structure" else "broad_grep_before_structure")

/-- The marker is tested before the command is read: after the unlock nothing is parsed. -/
def decideShell (fields : Fields φ) (session : CodePointString) : Hooked Verdict := do
  let input := objectField fields "tool_input".toList
  match input.bind fun input => textField input "command".toList with
  | none => return allowed "malformed_payload"
  | some command =>
    if ← existsMarker sha256Hex session then return allowed "already_unlocked"
    let cwd ← known (payloadCwd gate fields)
    if !(← known (broadSearch gate.disk cwd command)) then
      return allowed "not_a_tree_search"
    if !(← storageReady gate.pid) then return allowed "marker_storage_unavailable"
    return denied "shell_search_before_structure"

/-- A payload with no session id is allowed: no marker can ever unlock that session. -/
def decide (fields : Fields φ) : Hooked Verdict :=
  match textField fields "session_id".toList with
  | none => return allowed "no_session_id"
  | some session =>
    let tool := get fields "tool_name".toList
    if unhashable tool then throw .suppressed
    else
      match asText tool with
      | none => return allowed "not_a_search_tool"
      | some name =>
        if name = "Bash".toList ∨ name = "exec_command".toList then
          decideShell sha256Hex gate fields session
        else if name = "Grep".toList ∨ name = "Glob".toList then
          decideNative sha256Hex gate fields session name
        else return allowed "not_a_search_tool"

def checkEntry (fields : Fields φ) (verdict : Verdict) : Entry φ :=
  [("ts", .float gate.now), ("session_id", held (get fields "session_id".toList)),
    ("tool", held (get fields "tool_name".toList)),
    ("pattern", held ((objectField fields "tool_input".toList).bind fun input =>
      get input "pattern".toList)),
    ("event", textValue (if verdict.denied then "denied" else "native_search_allowed").toList),
    ("reason", textValue verdict.reason.toList)]

def unreadEntry : Entry φ :=
  [("ts", .float gate.now), ("session_id", .null),
    ("event", textValue "native_search_allowed".toList),
    ("reason", textValue "malformed_payload".toList)]

def checked (stdin : Option Bytes) : Hooked Verdict := do
  match ← known (parsed f64 stdin) with
  | .value (.object fields) =>
    let verdict ← decide sha256Hex gate fields
    appendEntry f64 gate (checkEntry gate fields verdict)
    return verdict
  | _ =>
    appendEntry f64 gate (unreadEntry gate)
    return allowed "malformed_payload"

def ALLOW : Nat := 0

def DENY : Nat := 2

/-- The exit code of a deny whose message cannot be written. -/
def UNFLUSHED : Nat := 120

/-- The exit code. A suppressed error allows the call. -/
def gateCheck (stdin : Option Bytes) (stderrWorks : Bool) : Steps Nat := do
  match ← (checked f64 sha256Hex gate stdin).run with
  | .ok verdict => return if verdict.denied then (if stderrWorks then DENY else UNFLUSHED) else ALLOW
  | .error _ => return ALLOW

end Check

/-! ## gate-mark -/

section Mark

variable {φ : Type} (f64 : F64 φ) (sha256Hex : Bytes → Text) (gate : Gate φ)

def TOOL_PREFIX : Text := "mcp__agentless__".toList

/-- The tools of an older server that localize. -/
def V1_LOCALIZING : List Text :=
  ["repo_map", "get_symbols_overview", "expand_symbols", "find_symbol", "explain_symbol",
    "read_slice"].map String.toList

/-- The localizing call that the tool and the operation name. There is none for every other call. -/
def unlockReason (tool operation : Option Text) : Option Text := do
  let tool ← tool
  let name ← if TOOL_PREFIX.isPrefixOf tool then some (tool.drop TOOL_PREFIX.length) else none
  if V1_LOCALIZING.contains name then return name
  let tool ← App.Surface.TOOLS.find? (·.name = name)
  if !tool.localizes operation then none
  match tool.calls, operation with
  | .operations _, some operation => return name ++ '.' :: operation
  | _, _ => return name

def operationOf (fields : Fields φ) : Option (JsonValue φ) :=
  match (objectField fields "tool_input".toList).bind fun input => get input "operation".toList with
  | some (.str text) => some (.str text)
  | _ => none

def markEntry (fields : Fields φ) (session : CodePointString) (event : String) (reason : Text) :
    Entry φ :=
  [("ts", .float gate.now), ("session_id", .str session), ("event", textValue event.toList),
    ("tool", held (get fields "tool_name".toList)), ("operation", held (operationOf fields)),
    ("reason", textValue reason)]

/-- A payload that is not one JSON document, or that has no session id, is left alone. -/
def marked (stdin : Option Bytes) : Hooked Unit := do
  match ← known (parsed f64 stdin) with
  | .malformed => return
  | .value (.object fields) =>
    match textField fields "session_id".toList with
    | none => return
    | some session =>
      let tool := get fields "tool_name".toList
      if unhashable tool then throw .suppressed
      match unlockReason (asText tool) (asText (operationOf fields)) with
      | none =>
        appendEntry f64 gate
          (markEntry gate fields session "agentless_call_ignored" "non_localizing_operation".toList)
      | some reason =>
        writeMarker f64 sha256Hex session reason (held tool)
        appendEntry f64 gate (markEntry gate fields session "structural_call" reason)
  | .value _ => throw .suppressed

def gateMark (stdin : Option Bytes) : Steps Nat := do
  let _ ← (marked f64 sha256Hex gate stdin).run
  return ALLOW

end Mark

/-! ## Hook runs -/

/-- One run of a hook. -/
inductive Job (φ : Type) where
  | check (gate : Gate φ) (stdin : Option Bytes) (stderrWorks : Bool)
  | mark (gate : Gate φ) (stdin : Option Bytes)

def Job.program {φ : Type} (f64 : F64 φ) (sha256Hex : Bytes → Text) : Job φ → Steps Nat
  | check gate stdin stderrWorks => gateCheck f64 sha256Hex gate stdin stderrWorks
  | mark gate stdin => gateMark f64 sha256Hex gate stdin

end Agentless.Hook.Search
