import Agentless.Store.Incremental

/-!
# The cache-or-parse source of one file's facts and metrics

A row that describes the file's text is served, anything else is parsed. The answers are those
of a source with no database, over every database that a history of runs leaves.
-/

namespace Agentless.Store

open Syntax

/-- The queries that fail for a reason outside the tables: the lookup of a row, and the read of
its columns. -/
structure Faults where
  lookup : Option SqlError := none
  cells : Option SqlError := none

/-- An open database that passed the admission checks. -/
structure FactsDb where
  files : List FileRow
  generation : Text
  faults : Faults

inductive Source where
  | bypassed
  | absent
  | refused (refusal : Refusal)
  | usable (db : FactsDb)

/-- The schema test comes first: a database of another schema may not even name its
repository. -/
def rejection (row : MetaRow) (expected : Int) (repoRoot : Text) : Option Refusal :=
  if row.schema ≠ expected then some (.schema row.schema expected)
  else if row.repoRoot ≠ repoRoot then some (.otherRepository row.repoRoot)
  else none

def analysisRejection (row : MetaRow) (analysis : Bytes) : Option Refusal :=
  if row.analysis = analysis then none else some .otherAnalysis

def FactsDb.open (db : Database) (repoRoot : Text) (analysis : Bytes) (faults : Faults) :
    Except Refusal FactsDb :=
  match db.metaRow with
  | none => .error .noIndex
  | some row =>
    match (factsSchemaRejection row.schema).or
        ((rejection row factsSchemaVersion repoRoot).or (analysisRejection row analysis)) with
    | some refusal => .error refusal
    | none => .ok ⟨db.files, row.generation, faults⟩

/-- `none` is a path with no database. -/
def openFacts (database : Option Database) (repoRoot : Text) (noCache : Bool) (analysis : Bytes)
    (faults : Faults) : Source :=
  if noCache then .bypassed
  else
    match database with
    | none => .absent
    | some db =>
      match FactsDb.open db repoRoot analysis faults with
      | .ok opened => .usable opened
      | .error refusal => .refused refusal

section Reads

variable {P : Payload} (sha256 : Text → Bytes) (build : Build P)

def FactsDb.freshRow (db : FactsDb) (path : Text) (language : Language) (digest : Bytes) :
    Except SqlError (Option Nat) :=
  match db.faults.lookup with
  | some error => .error error
  | none =>
    match db.files.find? (fun row => row.columns.path == path) with
    | none => .ok none
    | some row =>
      if row.columns.language = language.name ∧ row.columns.digest = digest then .ok (some row.id)
      else .ok none

def FactsDb.freshId (db : FactsDb) (file : FileText) : Except SqlError (Option Nat) :=
  db.freshRow file.path file.language (file.digest sha256)

/-- The columns of the row `id`. -/
def FactsDb.cells (db : FactsDb) (id : Nat) : Except SqlError Columns :=
  match db.faults.cells with
  | some error => .error error
  | none =>
    match db.files.find? (fun row => row.id == id) with
    | some row => .ok row.columns
    | none => .error ⟨.interface, "no files row with id ".toList ++ Nat.toDigits 10 id⟩

/-- Stored rows of one file that could not be read. -/
structure RowFailure where
  kind : Text
  path : Text
  cause : SqlError
deriving DecidableEq, Repr

structure Served (α : Type) where
  value : α
  warning : Option RowFailure

structure FactSource where
  db : Option FactsDb

def FactSource.parsing : FactSource := ⟨none⟩

def FactSource.reading (db : FactsDb) : FactSource := ⟨some db⟩

/-- The source that a command reads after the open. -/
def Source.facts : Source → FactSource
  | .usable db => .reading db
  | _ => .parsing

namespace FactSource

variable (source : FactSource)

def stored {α : Type} (file : FileText) (kind : Text)
    (read : FactsDb → Nat → Except SqlError (Option α)) : Option α × Option RowFailure :=
  match source.db with
  | none => (none, none)
  | some db =>
    let found : Except SqlError (Option α) := match db.freshId sha256 file with
      | .error error => .error error
      | .ok none => .ok none
      | .ok (some id) => read db id
    match found with
    | .ok value => (value, none)
    | .error cause => (none, some ⟨kind, file.path, cause⟩)

/-- One parse of `file`, and what `derive` takes from it. -/
def parsed {α : Type} (file : FileText) (derive : P.Parsed → α) : Except P.Unparsable α :=
  (build.parse file.language file.text).map derive

def served {α : Type} (file : FileText) (kind : Text)
    (read : FactsDb → Nat → Except SqlError (Option α)) (parse : Except P.Unparsable α) :
    Served (Except P.Unparsable α) :=
  match source.stored sha256 file kind read with
  | (some value, warning) => ⟨.ok value, warning⟩
  | (none, warning) => ⟨parse, warning⟩

def readSymbols (db : FactsDb) (id : Nat) : Except SqlError (Option (List P.Symbol)) := do
  let cells ← db.cells id
  some <$> build.decodeSymbols cells.symbols

def readFacts (db : FactsDb) (id : Nat) : Except SqlError (Option (Facts P)) := do
  let cells ← db.cells id
  some <$> build.decodeFacts cells.symbols cells.facts

def readMetrics (db : FactsDb) (id : Nat) : Except SqlError (Option (Measured P)) := do
  let cells ← db.cells id
  build.storedMetrics cells.metrics

/-- A row without metrics is not served: the caller parses the file. -/
def readAll (db : FactsDb) (id : Nat) : Except SqlError (Option (Facts P × Measured P)) := do
  let cells ← db.cells id
  match ← build.storedMetrics cells.metrics with
  | none => return none
  | some measured => return some (← build.decodeFacts cells.symbols cells.facts, measured)

def symbols (file : FileText) : Served (Except P.Unparsable (List P.Symbol)) :=
  source.served sha256 file "symbol".toList (readSymbols build)
    (parsed build file fun parsed => (build.extract parsed).symbols)

def facts (file : FileText) : Served (Except P.Unparsable (Facts P)) :=
  source.served sha256 file "fact".toList (readFacts build) (parsed build file build.extract)

/-- A text that does not parse has the refusal as its reason. -/
def metrics (file : FileText) : Served (Measured P) :=
  let served := source.served sha256 file "metric".toList (readMetrics build)
    (parsed build file fun parsed => build.measured parsed file.path)
  match served.value with
  | .ok measured => ⟨measured, served.warning⟩
  | .error unparsable => ⟨.error (.of (P.display unparsable)), served.warning⟩

def factsAndMetrics (file : FileText) : Served (Except P.Unparsable (Facts P × Measured P)) :=
  source.served sha256 file "fact".toList (readAll build)
    (parsed build file fun parsed => (build.extract parsed, build.measured parsed file.path))

end FactSource

/-- What the database holds for one file's clone blocks. -/
inductive Lookup (P : Payload) where
  | hit (blocks : List P.Block)
  | unmeasured (reason : Text)
  | miss
  | unreadable (failure : RowFailure)

def FactsDb.storedBlocks (db : FactsDb) (file : FileText) : Except SqlError (Lookup P) := do
  match ← db.freshRow file.path file.language (sha256 file.text) with
  | none => return .miss
  | some id =>
    let cells ← db.cells id
    match ← build.storedMetrics cells.metrics with
    | some (.ok measured) => return .hit measured.blocks
    | some (.error ⟨_, some reason⟩) => return .unmeasured reason
    | some (.error ⟨_, none⟩) => return .miss
    | none => return .miss

def FactsDb.blocksFor (db : FactsDb) (file : FileText) : Lookup P :=
  match db.storedBlocks sha256 build file with
  | .ok lookup => lookup
  | .error cause => .unreadable ⟨"block".toList, file.path, cause⟩

end Reads

/-! ## The answers -/

variable {P : Payload} {sha256 : Text → Bytes} {build : Build P}

/-- Every row of an admitted database was written by this build, under an id of its own. -/
structure FactsDb.Admitted (sha256 : Text → Bytes) (build : Build P) (db : FactsDb) : Prop where
  ids : (db.files.map (·.id)).Nodup
  rows : ∀ stored ∈ db.files, ∃ file measure,
    content sha256 build file measure = some stored.columns

theorem open_admitted {builds : Bytes → Build P} {db : Database} {repoRoot : Text}
    {analysis : Bytes} {faults : Faults} {opened : FactsDb} (hdb : db.Sound sha256 builds)
    (h : FactsDb.open db repoRoot analysis faults = .ok opened) :
    opened.Admitted sha256 (builds analysis) := by
  unfold FactsDb.open at h
  cases hrow : db.metaRow with
  | none => simp [hrow] at h
  | some row =>
    simp only [hrow] at h
    split at h
    · simp at h
    case h_2 hnone =>
      obtain ⟨-, hnone⟩ := Option.or_eq_none_iff.mp hnone
      obtain ⟨-, hanalysis⟩ := Option.or_eq_none_iff.mp hnone
      obtain rfl := Except.ok.inj h
      have hsame : row.analysis = analysis := by
        by_contra hne
        simp [analysisRejection, hne] at hanalysis
      refine ⟨hdb.ids, fun stored hstored => ?_⟩
      obtain ⟨row', hrow', hcontent⟩ := hdb.rows stored hstored
      obtain rfl : row = row' := Option.some.inj (hrow.symm.trans hrow')
      rwa [hsame] at hcontent

theorem freshRow_eq_some {db : FactsDb} {path : Text} {language : Language} {digest : Bytes}
    {id : Nat} (h : db.freshRow path language digest = .ok (some id)) :
    ∃ row ∈ db.files, row.id = id ∧ row.columns.path = path ∧
      row.columns.language = language.name ∧ row.columns.digest = digest := by
  unfold FactsDb.freshRow at h
  split at h
  · simp at h
  split at h
  · simp at h
  case h_2 row hfind =>
    split at h
    case isFalse => simp at h
    case isTrue hkey =>
      obtain rfl : row.id = id := by simpa using h
      have hpath := List.find?_some hfind
      exact ⟨row, List.mem_of_find?_eq_some hfind, rfl, by simpa using hpath, hkey⟩

theorem cells_eq_ok {db : FactsDb} {id : Nat} {columns : Columns} (h : db.cells id = .ok columns) :
    ∃ row ∈ db.files, row.id = id ∧ row.columns = columns := by
  unfold FactsDb.cells at h
  split at h
  · simp at h
  split at h
  case h_1 row hfind =>
    have hid := List.find?_some hfind
    exact ⟨row, List.mem_of_find?_eq_some hfind, by simpa using hid, Except.ok.inj h⟩
  case h_2 => simp at h

/-- A fresh row was written for the very text that is asked about. -/
theorem FactsDb.Admitted.content_of_fresh (hsha : Function.Injective sha256) {db : FactsDb}
    (hdb : db.Admitted sha256 build) {file : FileText} {id : Nat} {columns : Columns}
    (hfresh : db.freshRow file.path file.language (sha256 file.text) = .ok (some id))
    (hcells : db.cells id = .ok columns) :
    ∃ measure, content sha256 build file measure = some columns := by
  obtain ⟨row, hrow, hid, hpath, hlanguage, hdigest⟩ := freshRow_eq_some hfresh
  obtain ⟨row', hrow', hid', rfl⟩ := cells_eq_ok hcells
  obtain rfl : row' = row := List.inj_on_of_nodup_map hdb.ids hrow' hrow (hid'.trans hid.symm)
  obtain ⟨file', measure, hcontent⟩ := hdb.rows row' hrow
  obtain ⟨-, -, -, hdescribes⟩ := content_eq_some sha256 hcontent
  have hthis : Describes sha256 file measure row'.columns :=
    ⟨hpath, hlanguage, hdigest, hdescribes.measured⟩
  obtain ⟨rfl, -⟩ := hdescribes.unique sha256 hsha hthis
  exact ⟨measure, hcontent⟩

/-- What a fresh row decodes to: the parse of the text, measured when the row is. -/
structure Decodes (build : Build P) (file : FileText) (parsed : P.Parsed) (columns : Columns) :
    Prop where
  parse : build.parse file.language file.text = .ok parsed
  symbols : build.decodeSymbols columns.symbols = .ok (build.extract parsed).symbols
  facts : build.decodeFacts columns.symbols columns.facts = .ok (build.extract parsed)
  metrics : build.storedMetrics columns.metrics = .ok none ∨
    build.storedMetrics columns.metrics = .ok (some (build.measured parsed file.path))

theorem decodes_of_content {file : FileText} {measure : Bool} {columns : Columns}
    (h : content sha256 build file measure = some columns) :
    ∃ parsed, Decodes build file parsed columns := by
  obtain ⟨analysis, hanalyze, hwrote, -⟩ := content_eq_some sha256 h
  unfold Build.analyze at hanalyze
  cases hparse : build.parse file.language file.text with
  | error unparsable => simp [hparse, Except.map] at hanalyze
  | ok parsed =>
    simp only [hparse, Except.map, Except.ok.injEq] at hanalyze
    subst hanalyze
    refine ⟨parsed, hparse, hwrote.symbols, hwrote.facts, ?_⟩
    cases measure with
    | false => exact .inl hwrote.metrics
    | true => exact .inr hwrote.metrics

namespace FactSource

variable {source : FactSource} {file : FileText}

theorem served_value {α : Type} {kind : Text} {read : FactsDb → Nat → Except SqlError (Option α)}
    {parse : Except P.Unparsable α}
    (h : ∀ db id value, source.db = some db → db.freshId sha256 file = .ok (some id) →
      read db id = .ok (some value) → parse = .ok value) :
    (source.served sha256 file kind read parse).value = parse := by
  unfold served stored
  cases hdb : source.db with
  | none => rfl
  | some db =>
    cases hfresh : db.freshId sha256 file with
    | error error => simp [hfresh]
    | ok found =>
      cases found with
      | none => simp [hfresh]
      | some id =>
        cases hread : read db id with
        | error error => simp [hfresh, hread]
        | ok value =>
          cases value with
          | none => simp [hfresh, hread]
          | some value => simp [hfresh, hread, h db id value hdb hfresh hread]

/-- A read of a row's columns that gives a value has read the columns. -/
theorem bind_cells_eq_ok {α : Type} {db : FactsDb} {id : Nat} {value : α}
    {decode : Columns → Except SqlError α} (h : (do decode (← db.cells id)) = .ok value) :
    ∃ columns, db.cells id = .ok columns ∧ decode columns = .ok value := by
  cases hcells : db.cells id with
  | error error => simp [hcells, bind, Except.bind] at h
  | ok columns => exact ⟨columns, rfl, by simpa [hcells, bind, Except.bind] using h⟩

section Answers

variable (hsha : Function.Injective sha256)
  (hsource : ∀ db, source.db = some db → db.Admitted sha256 build)

include hsha hsource in
theorem answer_value {α : Type} {kind : Text} {decode : Columns → Except SqlError (Option α)}
    {derive : P.Parsed → α}
    (h : ∀ parsed columns, Decodes build file parsed columns →
      decode columns = .ok none ∨ decode columns = .ok (some (derive parsed))) :
    (source.served sha256 file kind (fun db id => do decode (← db.cells id))
      (parsed build file derive)).value = (build.parse file.language file.text).map derive := by
  refine served_value fun db id value hdb hfresh hread => ?_
  obtain ⟨columns, hcells, hdecode⟩ := bind_cells_eq_ok hread
  obtain ⟨measure, hcontent⟩ := (hsource db hdb).content_of_fresh hsha hfresh hcells
  obtain ⟨parsed, hdecodes⟩ := decodes_of_content hcontent
  rw [FactSource.parsed, hdecodes.parse]
  rcases h parsed columns hdecodes with hnone | hsome
  · simp [hnone] at hdecode
  · obtain rfl : derive parsed = value := by simpa [hsome] using hdecode
    rfl

include hsha hsource in
theorem symbols_value : (source.symbols sha256 build file).value =
    (build.parse file.language file.text).map fun parsed => (build.extract parsed).symbols := by
  refine answer_value hsha hsource fun parsed columns hdecodes => .inr ?_
  simp [hdecodes.symbols, Functor.map, Except.map]

include hsha hsource in
theorem facts_value : (source.facts sha256 build file).value =
    (build.parse file.language file.text).map build.extract := by
  refine answer_value hsha hsource fun parsed columns hdecodes => .inr ?_
  simp [hdecodes.facts, Functor.map, Except.map]

include hsha hsource in
theorem metrics_value : (source.metrics sha256 build file).value =
    match build.parse file.language file.text with
    | .ok parsed => build.measured parsed file.path
    | .error unparsable => .error (.of (P.display unparsable)) := by
  have h : (source.served sha256 file "metric".toList (readMetrics build)
      (parsed build file fun parsed => build.measured parsed file.path)).value =
      (build.parse file.language file.text).map fun parsed => build.measured parsed file.path :=
    answer_value hsha hsource fun _ _ hdecodes => hdecodes.metrics
  unfold FactSource.metrics
  simp only [h]
  cases build.parse file.language file.text <;> rfl

include hsha hsource in
theorem factsAndMetrics_value : (source.factsAndMetrics sha256 build file).value =
    (build.parse file.language file.text).map fun parsed =>
      (build.extract parsed, build.measured parsed file.path) := by
  refine answer_value hsha hsource fun parsed columns hdecodes => ?_
  rcases hdecodes.metrics with hnone | hsome
  · exact .inl (by simp [hnone, bind, Except.bind, pure, Except.pure])
  · exact .inr (by simp [hsome, hdecodes.facts, bind, Except.bind, pure, Except.pure])

end Answers

/-- A row without metrics gives no metrics: the file is parsed for them. -/
theorem read_of_unmeasured {db : FactsDb} {id : Nat} {columns : Columns}
    (hcells : db.cells id = .ok columns) (hmetrics : columns.metrics = none) :
    readMetrics build db id = .ok none ∧ readAll build db id = .ok none := by
  simp [readMetrics, readAll, hcells, hmetrics, Build.storedMetrics, bind, Except.bind, pure,
    Except.pure]

end FactSource

theorem facts_admitted (builds : Bytes → Build P) (hsha : Function.Injective sha256)
    (history : List Run) (repoRoot : Text) (noCache : Bool) (analysis : Bytes) (faults : Faults)
    (db : FactsDb)
    (h : (openFacts (some (indexed sha256 builds history)) repoRoot noCache analysis
      faults).facts.db = some db) : db.Admitted sha256 (builds analysis) := by
  unfold openFacts at h
  cases noCache with
  | true => simp [Source.facts, FactSource.parsing] at h
  | false =>
    cases hopen : FactsDb.open (indexed sha256 builds history) repoRoot analysis faults with
    | error refusal => simp [hopen, Source.facts, FactSource.parsing] at h
    | ok opened =>
      obtain rfl : opened = db := by simpa [hopen, Source.facts, FactSource.reading] using h
      exact open_admitted (indexed_sound builds hsha history) hopen

/-- What a lookup says of the file that it is asked about. A miss says nothing. -/
def Lookup.Says (measured : Measured P) : Lookup P → Prop
  | .hit blocks => ∃ metrics, measured = .ok ⟨metrics, blocks⟩
  | .unmeasured reason => ∃ shown, measured = .error ⟨shown, some reason⟩
  | .miss => True
  | .unreadable _ => True

theorem storedBlocks_eq_of_fresh {db : FactsDb} {file : FileText} {id : Nat} {columns : Columns}
    (hfresh : db.freshRow file.path file.language (sha256 file.text) = .ok (some id))
    (hcells : db.cells id = .ok columns) :
    db.storedBlocks sha256 build file = (build.storedMetrics columns.metrics).map fun
      | some (.ok measured) => .hit measured.blocks
      | some (.error ⟨_, some reason⟩) => .unmeasured reason
      | some (.error ⟨_, none⟩) => .miss
      | none => .miss := by
  unfold FactsDb.storedBlocks
  simp only [hfresh, hcells, bind, Except.bind, pure, Except.pure]
  rcases build.storedMetrics columns.metrics with error | (_ | (⟨_, _ | _⟩ | _)) <;> rfl

/-- The stored clone blocks, or the stored reason that there are none, are what measuring the
text gives. -/
theorem blocksFor_says (hsha : Function.Injective sha256) {db : FactsDb}
    (hdb : db.Admitted sha256 build) (file : FileText) :
    (db.blocksFor sha256 build file).Says
      (match build.parse file.language file.text with
        | .ok parsed => build.measured parsed file.path
        | .error unparsable => .error (.of (P.display unparsable))) := by
  unfold FactsDb.blocksFor
  cases hfresh : db.freshRow file.path file.language (sha256 file.text) with
  | error error =>
    simp [FactsDb.storedBlocks, hfresh, bind, Except.bind, Lookup.Says]
  | ok found =>
    cases found with
    | none =>
      simp [FactsDb.storedBlocks, hfresh, bind, Except.bind, pure, Except.pure, Lookup.Says]
    | some id =>
      cases hcells : db.cells id with
      | error error =>
        simp [FactsDb.storedBlocks, hfresh, hcells, bind, Except.bind, Lookup.Says]
      | ok columns =>
        obtain ⟨measure, hcontent⟩ := hdb.content_of_fresh hsha hfresh hcells
        obtain ⟨parsed, hdecodes⟩ := decodes_of_content hcontent
        rw [storedBlocks_eq_of_fresh hfresh hcells, hdecodes.parse]
        rcases hdecodes.metrics with hnone | hsome
        · simp [hnone, Except.map, Lookup.Says]
        · simp only [hsome, Except.map]
          rcases build.measured parsed file.path with ⟨shown, _ | reason⟩ | ⟨metrics, blocks⟩
          · exact trivial
          · exact ⟨shown, rfl⟩
          · exact ⟨metrics, rfl⟩

/-- Over the database that any history of runs leaves, opened by the build of any analysis, every
answer is that of a parse of the text that is asked about, and so are the clone blocks that are
found. A row is read only when this build wrote it for this text, and one without metrics gives
none. -/
theorem source_transparent (hsha : Function.Injective sha256) (builds : Bytes → Build P)
    (history : List Run) (repoRoot : Text) (noCache : Bool) (analysis : Bytes) (faults : Faults)
    (file : FileText) :
    let source := (openFacts (some (indexed sha256 builds history)) repoRoot noCache analysis
      faults).facts
    let build := builds analysis
    let parse := build.parse file.language file.text
    (source.symbols sha256 build file).value =
      parse.map (fun parsed => (build.extract parsed).symbols) ∧
    (source.facts sha256 build file).value = parse.map build.extract ∧
    (source.metrics sha256 build file).value =
      (match parse with
        | .ok parsed => build.measured parsed file.path
        | .error unparsable => .error (.of (P.display unparsable))) ∧
    (source.factsAndMetrics sha256 build file).value =
      parse.map (fun parsed => (build.extract parsed, build.measured parsed file.path)) ∧
    (∀ db, source.db = some db → (db.blocksFor sha256 build file).Says
      (match parse with
        | .ok parsed => build.measured parsed file.path
        | .error unparsable => .error (.of (P.display unparsable)))) ∧
    ∀ db id columns, source.db = some db → db.freshId sha256 file = .ok (some id) →
      db.cells id = .ok columns →
      (∃ measure, content sha256 build file measure = some columns) ∧
      (columns.metrics = none → FactSource.readMetrics build db id = .ok none ∧
        FactSource.readAll build db id = .ok none) := by
  have hsource := facts_admitted builds hsha history repoRoot noCache analysis faults
  refine ⟨FactSource.symbols_value hsha hsource, FactSource.facts_value hsha hsource,
    FactSource.metrics_value hsha hsource, FactSource.factsAndMetrics_value hsha hsource,
    fun db hdb => blocksFor_says hsha (hsource db hdb) file, ?_⟩
  intro db id columns hdb hfresh hcells
  exact ⟨(hsource db hdb).content_of_fresh hsha hfresh hcells,
    FactSource.read_of_unmeasured hcells⟩

theorem source_transparent_empty_file :
    Function.Injective Sample.digest ∧
      ((openFacts (some (indexed Sample.digest (fun _ => Sample.build) [Sample.run])) "/r".toList
        false [] {}).facts.symbols Sample.digest Sample.build
          ⟨"a.py".toList, .python, []⟩).value = .ok [] :=
  ⟨Sample.digest_injective,
    (source_transparent Sample.digest_injective (fun _ => Sample.build) [Sample.run] "/r".toList
      false [] {} ⟨"a.py".toList, .python, []⟩).1⟩

end Agentless.Store
