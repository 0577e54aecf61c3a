import Agentless.Syntax.Language

/-!
# The index plan

Whether each walked file is reused, extracted, skipped or failed, decided before any parse, and
the join of the parse results to the plan.
-/

namespace Agentless.Store

open Std Syntax

/-- One file as the caller read it. -/
structure FileText where
  path : Text
  language : Language
  text : Text
deriving DecidableEq, Repr

/-- What the read of one walked file found. -/
inductive Read where
  | oversize (size : Nat)
  | unreadable (reason : Text)
  | text (file : FileText)
deriving DecidableEq, Repr

/-- One walked file of a known language, as the caller observed it. -/
structure Observed where
  path : Text
  language : Language
  measure : Bool
  read : Read
deriving DecidableEq, Repr

/-- A row's key, as the run before left it. -/
structure Entry where
  language : Text
  digest : Bytes
  measured : Bool
deriving DecidableEq, Repr

/-- What a database held before the run. -/
structure Previous where
  entries : TreeMap Text Entry compare
  analysis : Option Bytes

/-- One file to parse. -/
structure Extract where
  file : FileText
  measure : Bool
  digest : Bytes
deriving DecidableEq, Repr

structure IndexFailure where
  path : Text
  reason : Text
deriving DecidableEq, Repr

structure IndexSkip where
  path : Text
  reason : Text
deriving DecidableEq, Repr

inductive SqlClass where
  | operational | database | integrity | internal | data | interface | value | type | jsonDecode
deriving DecidableEq, Repr

structure SqlError where
  class_ : SqlClass
  message : Text
deriving DecidableEq, Repr

structure Blobs where
  metrics : Option Bytes
  symbols : Bytes
  rest : Bytes
deriving DecidableEq, Repr

/-- One analysis as its row stores it: the counts, and the blobs or the first encode error. -/
structure Encoded where
  symbols : Nat
  imports : Nat
  refs : Nat
  blobs : Except SqlError Blobs

/-- The decisions of one run before any parse. -/
structure Plan where
  extract : List Extract := []
  positions : List Nat := []
  seen : TreeSet Text compare := ∅
  recorded : List Text := []
  reused : Nat := 0
  pruned : Nat := 0
  failures : List (Nat × IndexFailure) := []
  skips : List IndexSkip := []

/-- The reason of a file over the per-file cap. -/
def tooLarge (size : Nat) : Text :=
  "skipped: ".toList ++ Nat.toDigits 10 size ++
    " bytes exceeds the per-file cap of 1000000 bytes".toList

section Plan

-- The SHA-256 of a text's UTF-8 bytes.
variable (sha256 : Text → Bytes)

def FileText.digest (file : FileText) : Bytes := sha256 file.text

/-- The row describes the text now: the same language, the same digest, and measured exactly
when the file is measured now. -/
def rowMatches (entry : Entry) (planned : Extract) (language : Language) : Bool :=
  entry.language == language.name && entry.digest == planned.digest &&
    entry.measured == planned.measure

def Plan.readable (plan : Plan) (position : Nat) (planned : Extract) (unchanged : Bool) : Plan :=
  let plan := { plan with seen := plan.seen.insert planned.file.path }
  if unchanged then { plan with reused := plan.reused + 1 }
  else
    { plan with
      positions := plan.positions ++ [position]
      extract := plan.extract ++ [planned] }

def Plan.consider (plan : Plan) (position : Nat) (file : Observed) (entry : Option Entry) : Plan :=
  match file.read with
  | .oversize size => { plan with skips := plan.skips ++ [⟨file.path, tooLarge size⟩] }
  | .unreadable reason =>
    { plan with failures := plan.failures ++ [(position, ⟨file.path, reason⟩)] }
  | .text text =>
    let planned : Extract := ⟨text, file.measure, text.digest sha256⟩
    let unchanged := entry.any (fun entry => rowMatches entry planned file.language)
    plan.readable position planned unchanged

def plan (previous : Previous) (observed : List Observed) (analysis : Bytes) (force : Bool) :
    Plan :=
  let reusable := !force && previous.analysis == some analysis
  let start : Plan := { recorded := previous.entries.keys }
  let considered := observed.zipIdx.foldl (fun (plan : Plan) item =>
    plan.consider sha256 item.2 item.1
      (previous.entries[item.1.path]?.filter (fun _ => reusable))) start
  let present := TreeSet.ofList (observed.map (·.path)) compare
  { considered with
    pruned := (considered.recorded.filter (fun path => !present.contains path)).length }

end Plan

structure NewRow where
  file : FileText
  digest : Bytes
  encoded : Encoded

/-- The plan joined to its parse results. -/
structure Settled where
  rows : List NewRow
  delete : List Text
  reused : Nat
  pruned : Nat
  failures : List IndexFailure
  skips : List IndexSkip

section Settle

variable {Unparsable : Type} (display : Unparsable → Text)

/-- The rows, the seen paths and the failures while the parse results are joined. -/
structure Joined where
  rows : List NewRow
  seen : TreeSet Text compare
  failures : List (Nat × IndexFailure)

/-- A file that does not parse fails, and its path leaves the seen set. -/
def Joined.add (joined : Joined) (planned : Extract) (position : Nat)
    (result : Except Unparsable Encoded) : Joined :=
  match result with
  | .ok encoded => { joined with rows := joined.rows ++ [⟨planned.file, planned.digest, encoded⟩] }
  | .error unparsable =>
    { joined with
      seen := joined.seen.erase planned.file.path
      failures := joined.failures ++
        [(position, ⟨planned.file.path, display unparsable⟩)] }

/-- `none` is the panic of a list that does not hold one result for each planned file. -/
def settle (plan : Plan) (parsed : List (Except Unparsable Encoded)) : Option Settled :=
  if plan.extract.length = parsed.length then
    let joined := ((plan.extract.zip plan.positions).zip parsed).foldl
      (fun (joined : Joined) item => joined.add display item.1.1 item.1.2 item.2)
      ⟨[], plan.seen, plan.failures⟩
    let failures := joined.failures.insertionSort (fun a b => a.1 ≤ b.1)
    let rows := joined.rows.insertionSort (fun a b => a.file.path ≤ b.file.path)
    let written := TreeSet.ofList (rows.map (·.file.path)) compare
    some
      { rows := rows
        delete := plan.recorded.filter
          (fun path => !joined.seen.contains path || written.contains path)
        reused := plan.reused
        pruned := plan.pruned
        failures := failures.map (·.2)
        skips := plan.skips }
  else none

end Settle

end Agentless.Store

/-!
## What one stored row holds and how it is made

A build of the program is the rules that turn one text into its row: the grammar's parse, the
extraction, the metrics and the encoders of the three blobs. Its analysis digest names it. What
the extraction gives is kept and never looked into, so it is abstract here.
-/

namespace Agentless.Store

open Syntax

/-- The types of what a parse gives. -/
structure Payload where
  Parsed : Type
  Unparsable : Type
  display : Unparsable → Text
  Symbol : Type
  Import : Type
  Ref : Type
  Span : Type
  Manifest : Type
  Block : Type
  -- A measured file's other metrics.
  Metrics : Type

variable {P : Payload}

structure Facts (P : Payload) where
  symbols : List P.Symbol
  imports : List P.Import
  refs : List P.Ref
  errors : List P.Span
  manifest : Option P.Manifest
  modules : List Text

structure FileMetrics (P : Payload) where
  metrics : P.Metrics
  blocks : List P.Block

/-- Why a file has no metrics. -/
structure Unmeasured where
  reason : Text
  blocksReason : Option Text
deriving DecidableEq, Repr

def Unmeasured.of (error : Text) : Unmeasured := ⟨error, none⟩

abbrev Measured (P : Payload) := Except Unmeasured (FileMetrics P)

/-- What one parse of one file gives. -/
structure Analysis (P : Payload) where
  facts : Facts P
  metrics : Option (Measured P)

/-- The JSON object of the facts other than the symbols. A member that may be left out is an
option. -/
structure Rest (P : Payload) where
  imports : List P.Import
  refs : List P.Ref
  errors : List P.Span
  manifest : Option P.Manifest
  modules : Option (List Text)

/-- A serde writer and reader of one type. The reader gives back what the writer wrote. -/
structure Serde (α : Type) where
  toVec : α → Except Text Bytes
  fromSlice : Bytes → Except Text α
  readsBack : ∀ {a bytes}, toVec a = .ok bytes → fromSlice bytes = .ok a

/-- The rules that one analysis digest stands for. -/
structure Build (P : Payload) where
  parse : Language → Text → Except P.Unparsable P.Parsed
  extract : P.Parsed → Facts P
  measured : P.Parsed → Text → Measured P
  symbolsJson : Serde (List P.Symbol)
  restJson : Serde (Rest P)
  metricsJson : Serde (Measured P)

namespace Build

variable (build : Build P)

/-- Parses `file` once, extracts its facts, and measures it when `measure` is true. -/
def analyze (file : FileText) (measure : Bool) : Except P.Unparsable (Analysis P) :=
  (build.parse file.language file.text).map fun parsed =>
    { facts := build.extract parsed
      metrics := if measure then some (build.measured parsed file.path) else none }

def encoded {α : Type} (serde : Serde α) (value : α) : Except SqlError Bytes :=
  (serde.toVec value).mapError (⟨.interface, ·⟩)

def decoded {α : Type} (serde : Serde α) (bytes : Bytes) : Except SqlError α :=
  (serde.fromSlice bytes).mapError (⟨.jsonDecode, ·⟩)

/-- The members that hold nothing are left out. -/
def restOf (facts : Facts P) : Rest P :=
  { imports := facts.imports
    refs := facts.refs
    errors := facts.errors
    manifest := facts.manifest
    modules := if facts.modules.isEmpty then none else some facts.modules }

def metricsCell (metrics : Option (Measured P)) : Except SqlError (Option Bytes) :=
  match metrics with
  | none => .ok none
  | some measured => some <$> encoded build.metricsJson measured

/-- The metrics, then the symbols, then the rest: the first that fails names the error. -/
def blobs (analysis : Analysis P) : Except SqlError Blobs := do
  let metrics ← build.metricsCell analysis.metrics
  let symbols ← encoded build.symbolsJson analysis.facts.symbols
  let rest ← encoded build.restJson (restOf analysis.facts)
  return { metrics := metrics, symbols := symbols, rest := rest }

def encode (analysis : Analysis P) : Encoded where
  symbols := analysis.facts.symbols.length
  imports := analysis.facts.imports.length
  refs := analysis.facts.refs.length
  blobs := build.blobs analysis

def decodeSymbols (bytes : Bytes) : Except SqlError (List P.Symbol) :=
  decoded build.symbolsJson bytes

/-- A member that was left out reads as its default. -/
def decodeFacts (symbols rest : Bytes) : Except SqlError (Facts P) := do
  let rest ← decoded build.restJson rest
  let symbols ← build.decodeSymbols symbols
  return {
    symbols := symbols
    imports := rest.imports
    refs := rest.refs
    errors := rest.errors
    manifest := rest.manifest
    modules := rest.modules.getD [] }

def decodeMetrics (bytes : Bytes) : Except SqlError (Measured P) :=
  decoded build.metricsJson bytes

/-- A column with no metrics is a file that was not measured. -/
def storedMetrics (cell : Option Bytes) : Except SqlError (Option (Measured P)) :=
  match cell with
  | none => .ok none
  | some bytes => some <$> build.decodeMetrics bytes

/-- The parse and the encoding that one worker of a run does for one planned file. -/
def parsed (planned : Extract) : Except P.Unparsable Encoded :=
  (build.analyze planned.file planned.measure).map build.encode

/-- What the blobs of an analysis decode to. -/
theorem decoded_of_encoded {α : Type} {serde : Serde α} {value : α} {bytes : Bytes}
    (h : encoded serde value = .ok bytes) : decoded serde bytes = .ok value := by
  cases hv : serde.toVec value with
  | error message => simp [encoded, hv, Except.mapError] at h
  | ok written =>
    simp only [encoded, hv, Except.mapError, Except.ok.injEq] at h
    subst h
    simp [decoded, serde.readsBack hv, Except.mapError]

structure Wrote (analysis : Analysis P) (blobs : Blobs) : Prop where
  symbols : build.decodeSymbols blobs.symbols = .ok analysis.facts.symbols
  facts : build.decodeFacts blobs.symbols blobs.rest = .ok analysis.facts
  metrics : build.storedMetrics blobs.metrics = .ok analysis.metrics
  measured : blobs.metrics.isSome = analysis.metrics.isSome

theorem restOf_modules_getD (facts : Facts P) : (restOf facts).modules.getD [] = facts.modules := by
  unfold restOf
  cases facts.modules <;> simp

theorem decodeFacts_of_encoded {facts : Facts P} {symbols rest : Bytes}
    (hs : encoded build.symbolsJson facts.symbols = .ok symbols)
    (hr : encoded build.restJson (restOf facts) = .ok rest) :
    build.decodeFacts symbols rest = .ok facts := by
  have hs := decoded_of_encoded hs
  have hr := decoded_of_encoded hr
  simp only [decodeFacts, decodeSymbols, hs, hr, bind, Except.bind, pure, Except.pure,
    restOf_modules_getD]
  rfl

theorem storedMetrics_of_encoded {metrics : Option (Measured P)} {cell : Option Bytes}
    (h : build.metricsCell metrics = .ok cell) :
    build.storedMetrics cell = .ok metrics ∧ cell.isSome = metrics.isSome := by
  cases metrics with
  | none =>
    obtain rfl : none = cell := by simpa [metricsCell] using h
    exact ⟨rfl, rfl⟩
  | some measured =>
    cases hm : encoded build.metricsJson measured with
    | error e => simp [metricsCell, hm, Functor.map, Except.map] at h
    | ok bytes =>
      obtain rfl : some bytes = cell := by simpa [metricsCell, hm, Functor.map, Except.map] using h
      have hm := decoded_of_encoded hm
      simp [storedMetrics, decodeMetrics, hm, Functor.map, Except.map]

theorem wrote_of_blobs {analysis : Analysis P} {blobs : Blobs}
    (h : build.blobs analysis = .ok blobs) : build.Wrote analysis blobs := by
  unfold Build.blobs at h
  cases hm : build.metricsCell analysis.metrics with
  | error e => simp [hm, bind, Except.bind] at h
  | ok cell =>
    cases hs : encoded build.symbolsJson analysis.facts.symbols with
    | error e => simp [hm, hs, bind, Except.bind] at h
    | ok symbols =>
      cases hr : encoded build.restJson (restOf analysis.facts) with
      | error e => simp [hm, hs, hr, bind, Except.bind] at h
      | ok rest =>
        obtain rfl : ⟨cell, symbols, rest⟩ = blobs := by
          simpa [hm, hs, hr, bind, Except.bind, pure, Except.pure] using h
        obtain ⟨hmetrics, hsome⟩ := build.storedMetrics_of_encoded hm
        exact ⟨decoded_of_encoded hs, build.decodeFacts_of_encoded hs hr, hmetrics, hsome⟩

end Build

end Agentless.Store
