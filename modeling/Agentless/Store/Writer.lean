import Agentless.Store.Plan

/-!
# The writer of agentless.db and one index run

The database is its two tables. A run opens it, plans the walked files against the rows it
holds, parses what the plan extracts, and writes the settled plan in one transaction.
-/

namespace Agentless.Store

open Std Syntax

/-- The columns that an insert writes. -/
structure Columns where
  path : Text
  language : Text
  digest : Bytes
  tags : Nat
  imports : Nat
  refs : Nat
  metrics : Option Bytes
  symbols : Bytes
  facts : Bytes
deriving DecidableEq, Repr

/-- One row of the files table. -/
structure FileRow where
  id : Nat
  columns : Columns
deriving DecidableEq, Repr

/-- The one row of the meta table. -/
structure MetaRow where
  schema : Int
  repoRoot : Text
  generation : Text
  analysis : Bytes
  created : Int
deriving DecidableEq, Repr

structure Database where
  files : List FileRow
  metaRow : Option MetaRow
deriving DecidableEq, Repr

def Database.empty : Database := ⟨[], none⟩

/-- The table layout of agentless.db. -/
def factsSchemaVersion : Int := 1

inductive Refusal where
  | noIndex
  | schema (found expected : Int)
  | newerSchema (found expected : Int)
  | otherRepository (repoRoot : Text)
  | otherAnalysis
deriving DecidableEq, Repr

def factsSchemaRejection (found : Int) : Option Refusal :=
  if found < factsSchemaVersion then some (.schema found factsSchemaVersion)
  else if found = factsSchemaVersion then none
  else some (.newerSchema found factsSchemaVersion)

def storedSchema (db : Database) : Option Int := db.metaRow.map (·.schema)

/-- A newer layout belongs to the newer build that wrote it. -/
def refuseNewer (db : Database) : Except Refusal Unit :=
  match (storedSchema db).bind factsSchemaRejection with
  | some (.newerSchema found expected) => .error (.newerSchema found expected)
  | _ => .ok ()

/-- Creates the tables, and drops them first when the database records another layout. -/
def ensureSchema (db : Database) : Database :=
  if (storedSchema db).any (· != factsSchemaVersion) then .empty else db

def FileRow.entry (row : FileRow) : Text × Entry :=
  (row.columns.path, ⟨row.columns.language, row.columns.digest, row.columns.metrics.isSome⟩)

def loadPrevious (db : Database) : Previous where
  entries := TreeMap.ofList (db.files.map FileRow.entry) compare
  analysis := db.metaRow.map (·.analysis)

/-- `DELETE FROM files WHERE path = ?1`. -/
def deletePath (files : List FileRow) (path : Text) : List FileRow :=
  files.filter (fun row => row.columns.path != path)

/-- SQLite integers are signed 64-bit. -/
def count (length : Nat) : Nat := min length (2 ^ 63 - 1)

def NewRow.columns (row : NewRow) (blobs : Blobs) : Columns where
  path := row.file.path
  language := row.file.language.name
  digest := row.digest
  tags := count row.encoded.symbols
  imports := count row.encoded.imports
  refs := count row.encoded.refs
  metrics := blobs.metrics
  symbols := blobs.symbols
  facts := blobs.rest

/-- The id that SQLite gives a new row: one more than the largest. -/
def nextId (files : List FileRow) : Nat := (files.map (·.id)).foldl max 0 + 1

def uniqueFailed : SqlError := ⟨.integrity, "UNIQUE constraint failed: files.path".toList⟩

/-- A row whose blobs did not encode fails, and so does a path that the table holds. -/
def insert (files : List FileRow) (row : NewRow) : Except SqlError (List FileRow) :=
  match row.encoded.blobs with
  | .error error => .error error
  | .ok blobs =>
    if files.any (fun stored => stored.columns.path == row.file.path) then .error uniqueFailed
    else .ok (files ++ [⟨nextId files, row.columns blobs⟩])

def insertAll (files : List FileRow) : List NewRow → Except SqlError (List FileRow)
  | [] => .ok files
  | row :: rows =>
    match insert files row with
    | .error error => .error error
    | .ok files => insertAll files rows

structure RowCounts where
  files : Nat
  tags : Nat
  imports : Nat
  refs : Nat
deriving DecidableEq, Repr

def rowCounts (files : List FileRow) : RowCounts where
  files := files.length
  tags := (files.map (·.columns.tags)).sum
  imports := (files.map (·.columns.imports)).sum
  refs := (files.map (·.columns.refs)).sum

/-- The meta row that one run records. -/
structure NewMeta where
  repoRoot : Text
  generation : Text
  created : Int
deriving DecidableEq, Repr

def NewMeta.row (new : NewMeta) (analysis : Bytes) : MetaRow :=
  ⟨factsSchemaVersion, new.repoRoot, new.generation, analysis, new.created⟩

/-- The one transaction of a run: the deletes, the rows in path order, then the meta row.
`fault` is a statement or a commit that fails for a reason outside the tables, such as a full
disk. An error leaves the database as it was. -/
def write (db : Database) (settled : Settled) (new : NewMeta) (analysis : Bytes)
    (fault : Option SqlError) : Except SqlError (RowCounts × Database) :=
  match insertAll (settled.delete.foldl deletePath db.files) settled.rows with
  | .error error => .error error
  | .ok files =>
    match fault with
    | some error => .error error
    | none => .ok (rowCounts files, ⟨files, some (new.row analysis)⟩)

structure IndexReport where
  generation : Text
  indexed : Nat
  reused : Nat
  pruned : Nat
  files : Nat
  tags : Nat
  imports : Nat
  refs : Nat
  failures : List IndexFailure
  skippedFiles : List IndexSkip
deriving DecidableEq, Repr

def Settled.report (settled : Settled) (generation : Text) (counts : RowCounts) : IndexReport where
  generation := generation
  indexed := settled.rows.length
  reused := settled.reused
  pruned := settled.pruned
  files := counts.files
  tags := counts.tags
  imports := counts.imports
  refs := counts.refs
  failures := settled.failures
  skippedFiles := settled.skips

inductive RunError where
  | refused (refusal : Refusal)
  | panicked
  | sql (error : SqlError)
deriving DecidableEq, Repr

/-- One index run as its caller makes it. The walk lists distinct paths, and the text of a read
carries the path and the language it was read for. -/
structure Run where
  observed : List Observed
  analysis : Bytes
  force : Bool
  new : NewMeta
  fault : Option SqlError
  distinct : (observed.map (·.path)).Nodup
  reads : ∀ file ∈ observed, ∀ text, file.read = .text text →
    text.path = file.path ∧ text.language = file.language

section Run

variable {P : Payload} (sha256 : Text → Bytes) (builds : Bytes → Build P)

def Run.plan (run : Run) (db : Database) : Plan :=
  Store.plan sha256 (loadPrevious db) run.observed run.analysis run.force

/-- The plan of a run joined to the parses of its build. -/
def Run.settled (run : Run) (db : Database) : Option Settled :=
  settle P.display (run.plan sha256 db)
    ((run.plan sha256 db).extract.map (builds run.analysis).parsed)

/-- Everything under the lock: the open, the plan, the parses and the write. -/
def Run.index (run : Run) (db : Database) : Except RunError IndexReport × Database :=
  match refuseNewer db with
  | .error refusal => (.error (.refused refusal), db)
  | .ok () =>
    let db := ensureSchema db
    match run.settled sha256 builds db with
    | none => (.error .panicked, db)
    | some settled =>
      match write db settled run.new run.analysis run.fault with
      | .error error => (.error (.sql error), db)
      | .ok (counts, written) => (.ok (settled.report run.new.generation counts), written)

/-- The database after a sequence of runs. -/
def indexed (history : List Run) : Database :=
  history.foldl (fun db run => (run.index sha256 builds db).2) .empty

end Run

end Agentless.Store
