import Agentless.Store.Settle

/-!
# Incremental indexing is a full rebuild

The table that a run leaves is a function of what the run observed: one row for each file that
was read whole and parses, with the columns its own parse encodes. The invariant that carries
this over a history of runs says that every stored row is what the build of the meta row's
analysis encodes for some text.
-/

namespace Agentless.Store

open Std Syntax

variable {P : Payload} (sha256 : Text → Bytes)

/-! ## What a row holds -/

def NewRow.written (row : NewRow) : Option Columns :=
  match row.encoded.blobs with
  | .ok blobs => some (row.columns blobs)
  | .error _ => none

theorem written_path {row : NewRow} {columns : Columns} (h : row.written = some columns) :
    columns.path = row.file.path := by
  unfold NewRow.written at h
  cases hblobs : row.encoded.blobs with
  | error error => simp [hblobs] at h
  | ok blobs =>
    obtain rfl : row.columns blobs = columns := by simpa [hblobs] using h
    rfl

/-- The columns that a build writes for one text. -/
def content (build : Build P) (file : FileText) (measure : Bool) : Option Columns :=
  (Extract.row build.parsed ⟨file, measure, file.digest sha256⟩).bind NewRow.written

structure Describes (file : FileText) (measure : Bool) (columns : Columns) : Prop where
  path : columns.path = file.path
  language : columns.language = file.language.name
  digest : columns.digest = sha256 file.text
  measured : columns.metrics.isSome = measure

/-- What a written row says of the analysis it was made from. -/
theorem content_eq_some {build : Build P} {file : FileText} {measure : Bool} {columns : Columns}
    (h : content sha256 build file measure = some columns) :
    ∃ analysis, build.analyze file measure = .ok analysis ∧
      build.Wrote analysis ⟨columns.metrics, columns.symbols, columns.facts⟩ ∧
      Describes sha256 file measure columns := by
  unfold content Extract.row Build.parsed at h
  cases hanalyze : build.analyze file measure with
  | error unparsable => simp [hanalyze, Except.map] at h
  | ok analysis =>
    simp only [hanalyze, Except.map, Option.bind_some, NewRow.written, Build.encode] at h
    cases hblobs : build.blobs analysis with
    | error error => simp [hblobs] at h
    | ok blobs =>
      simp only [hblobs, Option.some.injEq] at h
      subst h
      have hwrote := build.wrote_of_blobs hblobs
      refine ⟨analysis, rfl, hwrote, rfl, rfl, rfl, hwrote.measured.trans ?_⟩
      unfold Build.analyze at hanalyze
      cases hparse : build.parse file.language file.text with
      | error unparsable => simp [hparse, Except.map] at hanalyze
      | ok parsed =>
        simp only [hparse, Except.map, Except.ok.injEq] at hanalyze
        subst hanalyze
        cases measure <;> simp

theorem Describes.unique (hsha : Function.Injective sha256) {file file' : FileText}
    {measure measure' : Bool} {columns : Columns} (h : Describes sha256 file measure columns)
    (h' : Describes sha256 file' measure' columns) : file = file' ∧ measure = measure' := by
  obtain ⟨path, language, text⟩ := file
  obtain ⟨path', language', text'⟩ := file'
  have hpath : path = path' := h.path.symm.trans h'.path
  have hlanguage : language = language' :=
    Language.name_injective (h.language.symm.trans h'.language)
  have htext : text = text' := hsha (h.digest.symm.trans h'.digest)
  exact ⟨by rw [hpath, hlanguage, htext], h.measured.symm.trans h'.measured⟩

/-! ## The invariant of the database -/

/-- Every path and every id has one row, and every row was written by the build of the meta
row's analysis. -/
structure Database.Sound (builds : Bytes → Build P) (db : Database) : Prop where
  paths : (db.files.map (·.columns.path)).Nodup
  ids : (db.files.map (·.id)).Nodup
  schema : ∀ row, db.metaRow = some row → row.schema = factsSchemaVersion
  rows : ∀ stored ∈ db.files, ∃ row, db.metaRow = some row ∧ ∃ file measure,
    content sha256 (builds row.analysis) file measure = some stored.columns

variable {sha256} {builds : Bytes → Build P} {db : Database}

theorem Database.Sound.empty : Database.empty.Sound sha256 builds := by
  constructor <;> simp [Database.empty]

theorem Database.Sound.storedSchema (h : db.Sound sha256 builds) (schema : Int)
    (hstored : storedSchema db = some schema) : schema = factsSchemaVersion := by
  obtain ⟨row, hrow, rfl⟩ := Option.map_eq_some_iff.mp hstored
  exact h.schema row hrow

theorem Database.Sound.refuseNewer (h : db.Sound sha256 builds) : refuseNewer db = .ok () := by
  unfold Store.refuseNewer
  cases hschema : Store.storedSchema db with
  | none => rfl
  | some schema => simp [h.storedSchema schema hschema, factsSchemaRejection]

theorem Database.Sound.ensureSchema (h : db.Sound sha256 builds) : ensureSchema db = db := by
  unfold Store.ensureSchema
  cases hschema : Store.storedSchema db with
  | none => rfl
  | some schema => simp [h.storedSchema schema hschema]

theorem mem_keys_entries (path : Text) :
    path ∈ (loadPrevious db).entries.keys ↔ path ∈ db.files.map (·.columns.path) := by
  rw [TreeMap.mem_keys, loadPrevious, TreeMap.mem_ofList, List.map_map, List.contains_iff_mem]
  rfl

theorem Database.Sound.getElem?_entries (h : db.Sound sha256 builds) (path : Text) (entry : Entry) :
    (loadPrevious db).entries[path]? = some entry ↔
      ∃ row ∈ db.files, row.entry = (path, entry) := by
  have hrow : ∀ row ∈ db.files,
      (loadPrevious db).entries[row.columns.path]? = some row.entry.2 := by
    intro row hrow
    refine TreeMap.getElem?_ofList_of_mem (Std.compare_eq_iff_eq.mpr rfl) ?_
      (List.mem_map_of_mem hrow)
    rw [List.pairwise_map]
    refine (List.pairwise_map.mp h.paths).imp fun hne heq => hne ?_
    exact Std.compare_eq_iff_eq.mp heq
  constructor
  · intro hentry
    have hkey : path ∈ (loadPrevious db).entries.keys :=
      TreeMap.mem_keys.mpr (TreeMap.mem_iff_isSome_getElem?.mpr (by simp [hentry]))
    obtain ⟨row, hmem, rfl⟩ := List.mem_map.mp ((mem_keys_entries path).mp hkey)
    rw [hrow row hmem, Option.some.injEq] at hentry
    exact ⟨row, hmem, by rw [← hentry]; rfl⟩
  · rintro ⟨row, hmem, hentry⟩
    have := hrow row hmem
    rw [show row.columns.path = path from congrArg Prod.fst hentry,
      show row.entry.2 = entry from congrArg Prod.snd hentry] at this
    exact this

/-! ## The writes -/

theorem foldl_deletePath (files : List FileRow) (paths : List Text) :
    paths.foldl deletePath files = files.filter fun row => row.columns.path ∉ paths := by
  induction paths generalizing files with
  | nil => simp
  | cons path paths ih =>
    rw [List.foldl_cons, ih, deletePath, List.filter_filter]
    refine List.filter_congr fun row _ => ?_
    by_cases hpath : row.columns.path = path <;> simp [hpath]

theorem le_foldl_max (ids : List Nat) (start : Nat) : start ≤ ids.foldl max start := by
  induction ids generalizing start with
  | nil => exact Nat.le_refl start
  | cons id ids ih => exact (Nat.le_max_left start id).trans (ih _)

theorem le_foldl_max_of_mem {ids : List Nat} {id : Nat} (h : id ∈ ids) (start : Nat) :
    id ≤ ids.foldl max start := by
  induction ids generalizing start with
  | nil => simp at h
  | cons other ids ih =>
    rcases List.mem_cons.mp h with rfl | h
    · exact (Nat.le_max_right start id).trans (le_foldl_max ids _)
    · exact ih h _

theorem nextId_fresh (files : List FileRow) : nextId files ∉ files.map (·.id) := fun h =>
  Nat.not_succ_le_self _ (le_foldl_max_of_mem h 0)

/-- Inserts of new and distinct paths: all rows are written, or the first error of an encode is
the error of the write. -/
theorem insertAll_spec (rows : List NewRow) (files : List FileRow)
    (hpaths : (files.map (·.columns.path) ++ rows.map (·.file.path)).Nodup) :
    (∃ after, insertAll files rows = .ok after ∧ (∀ row ∈ rows, row.written.isSome) ∧
      after.map (·.columns) = files.map (·.columns) ++ rows.filterMap NewRow.written ∧
      ((files.map (·.id)).Nodup → (after.map (·.id)).Nodup)) ∨
    ∃ error, insertAll files rows = .error error ∧ ∃ row ∈ rows, row.encoded.blobs = .error error := by
  induction rows generalizing files with
  | nil => exact .inl ⟨files, rfl, by simp, by simp, id⟩
  | cons row rows ih =>
    cases hblobs : row.encoded.blobs with
    | error error =>
      refine .inr ⟨error, ?_, row, List.mem_cons_self, hblobs⟩
      simp [insertAll, insert, hblobs]
    | ok blobs =>
      have hfresh : ¬ files.any (fun stored => stored.columns.path == row.file.path) := by
        simp only [List.any_eq_true, beq_iff_eq, not_exists, not_and]
        intro stored hstored heq
        exact (List.nodup_append.mp hpaths).2.2 _ (List.mem_map_of_mem hstored) _
          (by simp) heq
      have hinsert : insert files row = .ok (files ++ [⟨nextId files, row.columns blobs⟩]) := by
        simp [insert, hblobs, hfresh]
      have hwritten : row.written = some (row.columns blobs) := by simp [NewRow.written, hblobs]
      have hnext := ih (files ++ [⟨nextId files, row.columns blobs⟩]) (by
        simpa [NewRow.columns] using hpaths)
      rw [insertAll, hinsert]
      refine hnext.imp ?_ ?_
      · rintro ⟨after, hafter, hall, hcolumns, hids⟩
        refine ⟨after, hafter, ?_, ?_, fun hnodup => hids ?_⟩
        · exact List.forall_mem_cons.mpr ⟨by simp [hwritten], hall⟩
        · simp [hcolumns, hwritten]
        · rw [List.map_append, List.map_singleton]
          refine hnodup.append (List.nodup_singleton _) ?_
          exact List.disjoint_singleton.mpr (nextId_fresh files)
      · rintro ⟨error, herror, failed, hfailed, hencode⟩
        exact ⟨error, herror, failed, List.mem_cons_of_mem _ hfailed, hencode⟩

/-- The paths of a table that rows were added to. -/
theorem paths_of_columns {files after : List FileRow} {rows : List NewRow}
    (hwritten : ∀ row ∈ rows, row.written.isSome)
    (hcolumns : after.map (·.columns) = files.map (·.columns) ++ rows.filterMap NewRow.written) :
    after.map (·.columns.path) = files.map (·.columns.path) ++ rows.map (·.file.path) := by
  have hrows : (rows.filterMap NewRow.written).map (·.path) = rows.map (·.file.path) := by
    rw [Sequence.map_filterMap_eq (p := fun _ => true) (fun row _ _ => written_path) hwritten,
      List.filter_true]
  have hall := congrArg (List.map Columns.path) hcolumns
  rwa [List.map_append, hrows, List.map_map, List.map_map] at hall

/-! ## One run -/

/-- The columns of an observed file that was read whole and parses. -/
def Observed.content (sha256 : Text → Bytes) (build : Build P) (file : Observed) : Option Columns :=
  file.whole.bind fun text => Store.content sha256 build text file.measure

theorem Observed.whole_eq_some {file : Observed} {text : FileText} :
    file.whole = some text ↔ file.read = .text text := by
  unfold Observed.whole
  cases file.read <;> simp

/-- The file was read whole and its text parses. -/
def Observed.parses (build : Build P) (file : Observed) : Bool :=
  file.whole.any fun text => (build.parse text.language text.text).isOk

theorem parses_of_content {build : Build P} {file : Observed}
    (h : (file.content sha256 build).isSome) : file.parses build := by
  obtain ⟨columns, hcolumns⟩ := Option.isSome_iff_exists.mp h
  obtain ⟨text, hwhole, hcontent⟩ := Option.bind_eq_some_iff.mp hcolumns
  obtain ⟨analysis, hanalyze, -⟩ := content_eq_some sha256 hcontent
  unfold Build.analyze at hanalyze
  cases hparsed : build.parse text.language text.text with
  | ok parsed => simp [Observed.parses, hwhole, hparsed, Except.isOk, Except.toBool]
  | error unparsable => simp [hparsed, Except.map] at hanalyze

section Step

variable {run : Run} (hsha : Function.Injective sha256) (hdb : db.Sound sha256 builds)

include hdb in
theorem stored_eq_some {file : Observed} {entry : Entry} :
    run.stored db file = some entry ↔
      (run.force = false ∧ ∃ row, db.metaRow = some row ∧ row.analysis = run.analysis) ∧
        ∃ row ∈ db.files, row.entry = (file.path, entry) := by
  rw [Run.stored, Option.filter_eq_some_iff, hdb.getElem?_entries, and_comm]
  refine and_congr_left' ?_
  simp [loadPrevious]

include hsha hdb in
/-- A file is reused on a row that holds what its own parse would write. -/
theorem content_of_unchanged {file : Observed} (hfile : file ∈ run.observed) {text : FileText}
    (hwhole : file.whole = some text) (hsame : file.unchanged sha256 (run.stored db) text) :
    ∃ stored ∈ db.files, stored.columns.path = file.path ∧
      content sha256 (builds run.analysis) text file.measure = some stored.columns := by
  obtain ⟨entry, hentry, hmatches⟩ := (Option.any_eq_true _ _).mp hsame
  obtain ⟨⟨-, head', hhead', hanalysis⟩, stored, hstored, hkey⟩ := (stored_eq_some hdb).mp hentry
  obtain ⟨head, hhead, file', measure', hcontent⟩ := hdb.rows stored hstored
  obtain rfl : head' = head := Option.some.inj (hhead'.symm.trans hhead)
  rw [hanalysis] at hcontent
  obtain ⟨hpath, hlanguage⟩ := run.reads file hfile text (Observed.whole_eq_some.mp hwhole)
  have hstoredPath : stored.columns.path = file.path := congrArg Prod.fst hkey
  obtain rfl : _ = entry := congrArg Prod.snd hkey
  simp only [rowMatches, Bool.and_eq_true, beq_iff_eq, Observed.planned] at hmatches
  obtain ⟨⟨hl, hd⟩, hm⟩ := hmatches
  have hdescribes : Describes sha256 text file.measure stored.columns :=
    ⟨hstoredPath.trans hpath.symm, by rw [hlanguage]; exact hl, hd, hm⟩
  obtain ⟨-, -, -, hdescribes'⟩ := content_eq_some sha256 hcontent
  obtain ⟨rfl, rfl⟩ := hdescribes'.unique sha256 hsha hdescribes
  exact ⟨stored, hstored, hstoredPath, hcontent⟩

variable (sha256) in
theorem whole_cases {file : Observed} {text : FileText} (hwhole : file.whole = some text)
    (build : Build P) (entry : Observed → Option Entry) :
    (file.isReused sha256 entry ∧ file.newRow sha256 build entry = none ∧
      file.unparsed sha256 build entry = none) ∨
    (file.isReused sha256 entry = false ∧ file.unparsed sha256 build entry = none ∧
      ∃ row, file.newRow sha256 build entry = some row ∧ row.file = text ∧
        row.written = content sha256 build text file.measure ∧
        (build.parse text.language text.text).isOk) ∨
    (file.isReused sha256 entry = false ∧ file.newRow sha256 build entry = none ∧
      ∃ failure, file.unparsed sha256 build entry = some failure ∧ failure.path = text.path ∧
        (build.parse text.language text.text).isOk = false) := by
  by_cases hsame : file.unchanged sha256 entry text
  · have hextracted : file.extracted sha256 entry = none := by
      simp [Observed.extracted, hwhole, hsame]
    refine .inl ⟨?_, ?_, ?_⟩
    · simp [Observed.isReused, hwhole, hsame]
    · simp [Observed.newRow, hextracted]
    · simp [Observed.unparsed, hextracted]
  have hextracted : file.extracted sha256 entry = some (file.planned sha256 text) := by
    simp [Observed.extracted, hwhole, hsame]
  have hreused : file.isReused sha256 entry = false := by
    simpa [Observed.isReused, hwhole] using hsame
  have hcontent : content sha256 build text file.measure =
      (Extract.row build.parsed (file.planned sha256 text)).bind NewRow.written := rfl
  rw [hcontent, Observed.newRow, Observed.unparsed, hextracted, Option.bind_some, Option.bind_some,
    Extract.row, Extract.failure]
  refine .inr ?_
  cases hparse : build.parse text.language text.text with
  | ok parsed =>
    refine .inl ⟨hreused, ?_, ?_⟩
    all_goals simp [Build.parsed, Build.analyze, Observed.planned, hparse, Except.map, Except.isOk,
      Except.toBool]
  | error unparsable =>
    refine .inr ⟨hreused, ?_, ?_⟩
    all_goals simp [Build.parsed, Build.analyze, Observed.planned, hparse, Except.map, Except.isOk,
      Except.toBool]

theorem whole_of_newRow {file : Observed} {build : Build P} {entry : Observed → Option Entry}
    {row : NewRow} (h : file.newRow sha256 build entry = some row) :
    file.whole = some row.file ∧ row.written = content sha256 build row.file file.measure := by
  cases hwhole : file.whole with
  | none => simp [Observed.newRow, Observed.extracted, hwhole] at h
  | some text =>
    rcases whole_cases sha256 hwhole build entry with ⟨-, hnone, -⟩ |
      ⟨-, -, row', hrow', rfl, hwritten, -⟩ | ⟨-, hnone, -⟩
    · simp [hnone] at h
    · obtain rfl : row' = row := Option.some.inj (hrow'.symm.trans h)
      exact ⟨rfl, hwritten⟩
    · simp [hnone] at h

theorem whole_of_unparsed {file : Observed} {build : Build P} {entry : Observed → Option Entry}
    {failure : IndexFailure} (h : file.unparsed sha256 build entry = some failure) :
    ∃ text, file.whole = some text ∧ failure.path = text.path := by
  cases hwhole : file.whole with
  | none => simp [Observed.unparsed, Observed.extracted, hwhole] at h
  | some text =>
    rcases whole_cases sha256 hwhole build entry with ⟨-, -, hnone⟩ | ⟨-, hnone, -⟩ |
      ⟨-, -, failure', hfailure', hpath, -⟩
    · simp [hnone] at h
    · simp [hnone] at h
    · obtain rfl : failure' = failure := Option.some.inj (hfailure'.symm.trans h)
      exact ⟨text, rfl, hpath⟩

theorem Run.file_eq {file file' : Observed} (h : file ∈ run.observed) (h' : file' ∈ run.observed)
    (hpath : file.path = file'.path) : file = file' :=
  List.inj_on_of_nodup_map run.distinct h h' hpath

section Delete

variable {settled : Settled}
  (hsettles : Settles sha256 (builds run.analysis) (run.stored db) run.observed
    (loadPrevious db).entries.keys settled)

include hsettles in
theorem not_mem_delete_iff {stored : FileRow} (hstored : stored ∈ db.files) :
    stored.columns.path ∉ settled.delete ↔
      ∃ file ∈ run.observed, file.isReused sha256 (run.stored db) ∧
        file.path = stored.columns.path := by
  have hrecorded : stored.columns.path ∈ (loadPrevious db).entries.keys :=
    (mem_keys_entries _).mpr (List.mem_map_of_mem hstored)
  rw [hsettles.delete]
  simp only [hrecorded, true_and, not_not]
  constructor
  · rintro ⟨⟨⟨file, hfile, hpath⟩, hparses⟩, hrows⟩
    obtain ⟨text, hwhole, hpath⟩ := Option.map_eq_some_iff.mp hpath
    have hpath' := (run.reads file hfile text (Observed.whole_eq_some.mp hwhole)).1
    refine ⟨file, hfile, ?_, hpath'.symm.trans hpath⟩
    rcases whole_cases sha256 hwhole (builds run.analysis) (run.stored db) with ⟨hreused, -, -⟩ |
      ⟨-, -, row, hrow, rfl, -⟩ | ⟨-, -, failure, hfailure, hfailed, -⟩
    · exact hreused
    · refine absurd ?_ hrows
      have : row ∈ settled.rows :=
        hsettles.rows.mem_iff.mpr (List.mem_filterMap.mpr ⟨file, hfile, hrow⟩)
      exact List.mem_map.mpr ⟨row, this, hpath⟩
    · exact absurd (hfailed.trans hpath) (hparses file hfile failure hfailure)
  · rintro ⟨file, hfile, hreused, hpath⟩
    obtain ⟨text, hwhole, -⟩ := (Option.any_eq_true _ _).mp hreused
    obtain ⟨hnew, hunparsed⟩ : file.newRow sha256 (builds run.analysis) (run.stored db) = none ∧
        file.unparsed sha256 (builds run.analysis) (run.stored db) = none := by
      rcases whole_cases sha256 hwhole (builds run.analysis) (run.stored db) with h | h | h
      · exact h.2
      · simp [h.1] at hreused
      · simp [h.1] at hreused
    have hpath' := (run.reads file hfile text (Observed.whole_eq_some.mp hwhole)).1
    refine ⟨⟨⟨file, hfile, by simp [hwhole, hpath', hpath]⟩, ?_⟩, ?_⟩
    · intro other hother failure hfailure hsame
      obtain ⟨text', hwhole', hfailed⟩ := whole_of_unparsed hfailure
      have hother' := (run.reads other hother text' (Observed.whole_eq_some.mp hwhole')).1
      have : other = file := run.file_eq hother hfile (by rw [hpath, ← hsame, hfailed, hother'])
      simp [this, hunparsed] at hfailure
    · intro hmem
      obtain ⟨row, hrow, hsame⟩ := List.mem_map.mp hmem
      obtain ⟨other, hother, hrow⟩ := List.mem_filterMap.mp (hsettles.rows.mem_iff.mp hrow)
      obtain ⟨hwhole', -⟩ := whole_of_newRow hrow
      have hother' := (run.reads other hother row.file (Observed.whole_eq_some.mp hwhole')).1
      have : other = file := run.file_eq hother hfile (by rw [hpath, ← hsame, hother'])
      simp [this, hnew] at hrow

include hdb hsettles in
/-- After the deletes no row has the path of a row to insert, and no two rows to insert share
one. -/
theorem nodup_kept_append_rows :
    ((settled.delete.foldl deletePath db.files).map (·.columns.path) ++
      settled.rows.map (·.file.path)).Nodup := by
  rw [foldl_deletePath]
  have hrows : (settled.rows.map (·.file.path)).Nodup := by
    refine (hsettles.rows.map _).nodup_iff.mpr (run.distinct.sublist ?_)
    refine Sequence.map_filterMap_sublist fun file hfile row hrow => ?_
    exact (run.reads file hfile row.file (Observed.whole_eq_some.mp (whole_of_newRow hrow).1)).1
  refine (hdb.paths.sublist (List.filter_sublist.map _)).append hrows ?_
  intro path hkept hnew
  obtain ⟨stored, hstored, rfl⟩ := List.mem_map.mp hkept
  obtain ⟨hstored, hnot⟩ := List.mem_filter.mp hstored
  refine of_decide_eq_true hnot ((hsettles.delete _).mpr ⟨?_, fun h => h.2 hnew⟩)
  exact (mem_keys_entries _).mpr (List.mem_map_of_mem hstored)

include hsha hdb in
theorem content_of_isReused {file : Observed} (hfile : file ∈ run.observed)
    (hreused : file.isReused sha256 (run.stored db)) :
    ∃ stored ∈ db.files, stored.columns.path = file.path ∧
      file.content sha256 (builds run.analysis) = some stored.columns := by
  obtain ⟨text, hwhole, hsame⟩ := (Option.any_eq_true _ _).mp hreused
  obtain ⟨stored, hstored, hpath, hcontent⟩ := content_of_unchanged hsha hdb hfile hwhole hsame
  exact ⟨stored, hstored, hpath, by rw [Observed.content, hwhole, Option.bind_some, hcontent]⟩

include hsha hdb hsettles in
theorem mem_table_iff (columns : Columns) :
    columns ∈ (settled.delete.foldl deletePath db.files).map (·.columns) ++
        settled.rows.filterMap NewRow.written ↔
      ∃ file ∈ run.observed, file.content sha256 (builds run.analysis) = some columns := by
  rw [foldl_deletePath, List.mem_append]
  constructor
  · rintro (hkept | hnew)
    · obtain ⟨stored, hstored, rfl⟩ := List.mem_map.mp hkept
      obtain ⟨hstored, hnot⟩ := List.mem_filter.mp hstored
      obtain ⟨file, hfile, hreused, hpath⟩ :=
        (not_mem_delete_iff hsettles hstored).mp (of_decide_eq_true hnot)
      obtain ⟨other, hother, hsame, hcontent⟩ := content_of_isReused hsha hdb hfile hreused
      obtain rfl : other = stored :=
        List.inj_on_of_nodup_map hdb.paths hother hstored (hsame.trans hpath)
      exact ⟨file, hfile, hcontent⟩
    · obtain ⟨row, hrow, hwritten⟩ := List.mem_filterMap.mp hnew
      obtain ⟨file, hfile, hrow⟩ := List.mem_filterMap.mp (hsettles.rows.mem_iff.mp hrow)
      obtain ⟨hwhole, hcontent⟩ := whole_of_newRow hrow
      refine ⟨file, hfile, ?_⟩
      rw [Observed.content, hwhole, Option.bind_some, ← hcontent, hwritten]
  · rintro ⟨file, hfile, hcontent⟩
    obtain ⟨text, hwhole, hcontent'⟩ := Option.bind_eq_some_iff.mp hcontent
    rcases whole_cases sha256 hwhole (builds run.analysis) (run.stored db) with ⟨hreused, -⟩ |
      ⟨-, -, row, hrow, -, hwritten, -⟩ | ⟨-, -, failure, -, -, hparse⟩
    · obtain ⟨stored, hstored, hpath, hsame⟩ := content_of_isReused hsha hdb hfile hreused
      obtain rfl : stored.columns = columns := Option.some.inj (hsame.symm.trans hcontent)
      have hnot := (not_mem_delete_iff hsettles hstored).mpr ⟨file, hfile, hreused, hpath.symm⟩
      exact .inl (List.mem_map_of_mem (List.mem_filter.mpr ⟨hstored, decide_eq_true hnot⟩))
    · refine .inr (List.mem_filterMap.mpr ⟨row, ?_, hwritten.trans hcontent'⟩)
      exact hsettles.rows.mem_iff.mpr (List.mem_filterMap.mpr ⟨file, hfile, hrow⟩)
    · have hparses := parses_of_content (Option.isSome_iff_exists.mpr ⟨columns, hcontent⟩)
      simp [Observed.parses, hwhole, hparse] at hparses

end Delete

/-- What a run that returns leaves behind. -/
structure Run.Leaves (sha256 : Text → Bytes) (builds : Bytes → Build P) (run : Run)
    (after : Database) : Prop where
  sound : after.Sound sha256 builds
  table : (after.files.map (·.columns)).Perm
    (run.observed.filterMap (Observed.content sha256 (builds run.analysis)))
  encoded : ∀ file ∈ run.observed, (file.content sha256 (builds run.analysis)).isSome =
    file.parses (builds run.analysis)

theorem content_path {build : Build P} {file : Observed} (hfile : file ∈ run.observed)
    {columns : Columns} (h : file.content sha256 build = some columns) :
    columns.path = file.path := by
  obtain ⟨text, hwhole, hcontent⟩ := Option.bind_eq_some_iff.mp h
  obtain ⟨-, -, -, hdescribes⟩ := content_eq_some sha256 hcontent
  exact hdescribes.path.trans (run.reads file hfile text (Observed.whole_eq_some.mp hwhole)).1

include hdb in
/-- On a sound database the open changes nothing. -/
theorem index_eq {settled : Settled} (hsettled : run.settled sha256 builds db = some settled) :
    run.index sha256 builds db =
      match write db settled run.new run.analysis run.fault with
      | .error error => (.error (.sql error), db)
      | .ok (counts, written) => (.ok (settled.report run.new.generation counts), written) := by
  unfold Run.index
  rewrite [hdb.refuseNewer, hdb.ensureSchema]
  dsimp only
  rewrite [hsettled]
  rfl

include hsha hdb in
theorem leaves_of_insertAll {settled : Settled}
    (hsettles : Settles sha256 (builds run.analysis) (run.stored db) run.observed
      (loadPrevious db).entries.keys settled)
    {files : List FileRow} (hwritten : ∀ row ∈ settled.rows, row.written.isSome)
    (hcolumns : files.map (·.columns) =
      (settled.delete.foldl deletePath db.files).map (·.columns) ++
        settled.rows.filterMap NewRow.written)
    (hids : (files.map (·.id)).Nodup) :
    run.Leaves sha256 builds ⟨files, some (run.new.row run.analysis)⟩ := by
  have hmem := mem_table_iff hsha hdb hsettles
  rw [← hcolumns] at hmem
  have hpaths : (files.map (·.columns.path)).Nodup := by
    rw [paths_of_columns hwritten hcolumns]
    exact nodup_kept_append_rows hdb hsettles
  have hencoded : ∀ file ∈ run.observed, file.parses (builds run.analysis) →
      (file.content sha256 (builds run.analysis)).isSome := by
    intro file hfile hparses
    obtain ⟨text, hwhole, hok⟩ := (Option.any_eq_true _ _).mp hparses
    rcases whole_cases sha256 hwhole (builds run.analysis) (run.stored db) with ⟨hreused, -⟩ |
      ⟨-, -, row, hrow, -, hcontent, -⟩ | ⟨-, -, failure, -, -, hparse⟩
    · obtain ⟨stored, -, -, hcontent⟩ := content_of_isReused hsha hdb hfile hreused
      simp [hcontent]
    · have hrow : row ∈ settled.rows :=
        hsettles.rows.mem_iff.mpr (List.mem_filterMap.mpr ⟨file, hfile, hrow⟩)
      rw [Observed.content, hwhole, Option.bind_some, ← hcontent]
      exact hwritten row hrow
    · simp [hparse] at hok
  refine ⟨⟨hpaths, hids, ?_, ?_⟩, ?_, ?_⟩
  · rintro row ⟨rfl⟩
    rfl
  · intro stored hstored
    obtain ⟨file, -, hcontent⟩ := (hmem stored.columns).mp (List.mem_map_of_mem hstored)
    obtain ⟨text, -, hcontent⟩ := Option.bind_eq_some_iff.mp hcontent
    exact ⟨_, rfl, text, file.measure, hcontent⟩
  · refine (List.perm_ext_iff_of_nodup ?_ ?_).mpr fun columns => ?_
    · exact List.Nodup.of_map (·.path) (by rwa [List.map_map])
    · refine List.Nodup.of_map (·.path) (run.distinct.sublist ?_)
      exact Sequence.map_filterMap_sublist fun file hfile columns => content_path hfile
    · rw [hmem, List.mem_filterMap]
  · exact fun file hfile => Bool.eq_iff_iff.mpr ⟨parses_of_content, hencoded file hfile⟩

variable (run) in
include hsha hdb in
/-- A run settles its plan, and then either writes the table of the files it observed or writes
nothing and returns the error of a row that does not encode or of the fault. -/
theorem index_spec :
    ∃ settled, run.settled sha256 builds db = some settled ∧
      Settles sha256 (builds run.analysis) (run.stored db) run.observed
        (loadPrevious db).entries.keys settled ∧
      ((∃ counts after, run.index sha256 builds db =
          (.ok (settled.report run.new.generation counts), after) ∧ run.fault = none ∧
          run.Leaves sha256 builds after) ∨
        ∃ error, run.index sha256 builds db = (.error (.sql error), db) ∧
          (run.fault = some error ∨ ∃ row ∈ settled.rows, row.encoded.blobs = .error error)) := by
  obtain ⟨settled, hsettled, hsettles⟩ := settled_settles sha256 builds run db
  refine ⟨settled, hsettled, hsettles, ?_⟩
  rw [index_eq hdb hsettled]
  have hnodup := nodup_kept_append_rows hdb hsettles
  rcases insertAll_spec settled.rows _ hnodup with ⟨files, hfiles, hwritten, hcolumns, hids⟩ |
    ⟨error, herror, hrow⟩
  · cases hfault : run.fault with
    | some error =>
      refine .inr ⟨error, ?_, .inl rfl⟩
      simp [write, hfiles]
    | none =>
      refine .inl ⟨rowCounts files, ⟨files, some (run.new.row run.analysis)⟩, ?_, rfl, ?_⟩
      · simp [write, hfiles]
      · refine leaves_of_insertAll hsha hdb hsettles hwritten hcolumns (hids ?_)
        rw [foldl_deletePath]
        exact hdb.ids.sublist (List.filter_sublist.map _)
  · refine .inr ⟨error, ?_, .inr hrow⟩
    simp [write, herror]

end Step

/-! ## Histories of runs -/

variable (builds) in
theorem indexed_sound (hsha : Function.Injective sha256) (history : List Run) :
    (indexed sha256 builds history).Sound sha256 builds := by
  unfold indexed
  suffices ∀ db, Database.Sound sha256 builds db →
      (history.foldl (fun db run => (run.index sha256 builds db).2) db).Sound sha256 builds from
    this _ .empty
  induction history with
  | nil => exact fun db hdb => hdb
  | cons run history ih =>
    intro db hdb
    rw [List.foldl_cons]
    refine ih _ ?_
    obtain ⟨settled, -, -, ⟨counts, after, hindex, -, hleaves⟩ | ⟨error, hindex, -⟩⟩ :=
      index_spec run hsha hdb
    · rw [hindex]
      exact hleaves.sound
    · rwa [hindex]

/-- What becomes of one observed file in a run. -/
inductive Fate where
  | indexed | reused | failed | skipped
deriving DecidableEq, Repr

def Observed.fate (sha256 : Text → Bytes) (build : Build P) (entry : Observed → Option Entry)
    (file : Observed) : Fate :=
  match file.read with
  | .oversize _ => .skipped
  | .unreadable _ => .failed
  | .text text =>
    if file.unchanged sha256 entry text then .reused
    else if (build.parse text.language text.text).isOk then .indexed
    else .failed

/-- Each observed file is counted under its fate, and nowhere else. The failures and the skips
come in walk order. -/
structure Counted (fate : Observed → Fate) (observed : List Observed) (settled : Settled) :
    Prop where
  indexed : (settled.rows.map (·.file.path)).Perm
    ((observed.filter (fate · = .indexed)).map (·.path))
  reused : settled.reused = observed.countP (fate · = .reused)
  failed : settled.failures.map (·.path) = (observed.filter (fate · = .failed)).map (·.path)
  skipped : settled.skips.map (·.path) = (observed.filter (fate · = .skipped)).map (·.path)
  total : settled.rows.length + settled.reused + settled.failures.length + settled.skips.length =
    observed.length

theorem countP_fate (fate : Observed → Fate) (observed : List Observed) :
    observed.countP (fate · = .indexed) + observed.countP (fate · = .reused) +
      observed.countP (fate · = .failed) + observed.countP (fate · = .skipped) =
        observed.length := by
  induction observed with
  | nil => rfl
  | cons file observed ih =>
    simp only [List.countP_cons, List.length_cons]
    cases fate file <;> simp <;> omega

section Fate

variable (sha256) (build : Build P) (entry : Observed → Option Entry) (file : Observed)

/-- What each list of the report holds of a file is its fate. -/
theorem fate_spec :
    file.isReused sha256 entry = decide (file.fate sha256 build entry = .reused) ∧
    (file.newRow sha256 build entry).isSome = decide (file.fate sha256 build entry = .indexed) ∧
    (file.failed sha256 build entry).isSome = decide (file.fate sha256 build entry = .failed) ∧
    file.skip.isSome = decide (file.fate sha256 build entry = .skipped) := by
  unfold Observed.isReused Observed.newRow Observed.failed Observed.unparsed Observed.skip
    Observed.unread Observed.extracted Observed.whole Observed.fate
  cases hread : file.read with
  | oversize size => simp
  | unreadable reason => simp
  | text text =>
    by_cases hsame : file.unchanged sha256 entry text
    · simp [hsame]
    cases hparse : build.parse text.language text.text <;>
      simp [hsame, hparse, Extract.row, Extract.failure, Build.parsed, Build.analyze,
        Observed.planned, Except.map, Except.isOk, Except.toBool]

end Fate

theorem failed_path {run : Run} {file : Observed} (hfile : file ∈ run.observed)
    {build : Build P} {entry : Observed → Option Entry} {failure : IndexFailure}
    (h : file.failed sha256 build entry = some failure) : failure.path = file.path := by
  rcases Option.or_eq_some_iff.mp h with hunread | ⟨-, hunparsed⟩
  · unfold Observed.unread at hunread
    cases hread : file.read <;> simp_all
    rw [← hunread]
  · obtain ⟨text, hwhole, hpath⟩ := whole_of_unparsed hunparsed
    exact hpath.trans (run.reads file hfile text (Observed.whole_eq_some.mp hwhole)).1

theorem Settles.counted {entry : Observed → Option Entry} {recorded : List Text}
    {settled : Settled} {run : Run} {build : Build P}
    (h : Settles sha256 build entry run.observed recorded settled) :
    Counted (Observed.fate sha256 build entry) run.observed settled := by
  have hspec := fate_spec sha256 build entry
  have hindexed : (settled.rows.map (·.file.path)).Perm
      ((run.observed.filter (Observed.fate sha256 build entry · = .indexed)).map (·.path)) := by
    refine (h.rows.map _).trans (List.Perm.of_eq ?_)
    refine Sequence.map_filterMap_eq (fun file hfile row hrow => ?_) fun file _ => (hspec file).2.1
    exact (run.reads file hfile row.file (Observed.whole_eq_some.mp (whole_of_newRow hrow).1)).1
  have hfailed : settled.failures.map (·.path) =
      (run.observed.filter (Observed.fate sha256 build entry · = .failed)).map (·.path) := by
    rw [h.failures]
    refine Sequence.map_filterMap_eq (fun file hfile failure hfailure => ?_)
      fun file _ => (hspec file).2.2.1
    exact failed_path hfile hfailure
  have hskipped : settled.skips.map (·.path) =
      (run.observed.filter (Observed.fate sha256 build entry · = .skipped)).map (·.path) := by
    rw [h.skips]
    refine Sequence.map_filterMap_eq (fun file hfile skip hskip => ?_)
      fun file _ => (hspec file).2.2.2
    unfold Observed.skip at hskip
    cases hread : file.read <;> simp_all
    rw [← hskip]
  have hreused : settled.reused =
      run.observed.countP (Observed.fate sha256 build entry · = .reused) := by
    rw [h.reused]
    exact List.countP_congr fun file _ => by rw [(hspec file).1]
  refine ⟨hindexed, hreused, hfailed, hskipped, ?_⟩
  have hlengths := countP_fate (Observed.fate sha256 build entry) run.observed
  have hi := hindexed.length_eq
  have hf := congrArg List.length hfailed
  have hs := congrArg List.length hskipped
  simp only [List.length_map, ← List.countP_eq_length_filter] at hi hf hs
  omega

/-- The same run with every file parsed again. -/
def Run.forced (run : Run) : Run := { run with force := true }

/-- A forced run fails only where a run that returned would have failed too. -/
theorem forced_leaves (hsha : Function.Injective sha256) {run : Run} {after db : Database}
    (hfault : run.fault = none) (hleaves : run.Leaves sha256 builds after)
    (hdb : db.Sound sha256 builds) :
    ∃ report rebuilt, run.forced.index sha256 builds db = (.ok report, rebuilt) ∧
      run.Leaves sha256 builds rebuilt := by
  obtain ⟨settled, -, hsettles, ⟨counts, rebuilt, hindex, -, hrebuilt⟩ | ⟨error, hindex, hcause⟩⟩ :=
    index_spec run.forced hsha hdb
  · exact ⟨_, rebuilt, hindex, hrebuilt.sound, hrebuilt.table, hrebuilt.encoded⟩
  rcases hcause with hfault' | ⟨row, hrow, hencode⟩
  · exact absurd (hfault.symm.trans hfault') (by simp)
  -- the file of a row that does not encode parses, so the run that returned has encoded it
  obtain ⟨file, hfile, hrow⟩ := List.mem_filterMap.mp (hsettles.rows.mem_iff.mp hrow)
  obtain ⟨hwhole, hwritten⟩ := whole_of_newRow hrow
  have hencoded := hleaves.encoded file hfile
  have hnone : file.content sha256 (builds run.analysis) = none := by
    rw [Observed.content, hwhole, Option.bind_some]
    exact hwritten.symm.trans (by rw [NewRow.written, hencode])
  rcases whole_cases sha256 hwhole (builds run.analysis) (run.forced.stored db) with ⟨-, h, -⟩ |
    ⟨-, -, -, -, -, -, hparse⟩ | ⟨-, h, -⟩
  · exact absurd (h.symm.trans hrow) (by simp)
  · simp [hnone, Observed.parses, hwhole, hparse] at hencoded
  · exact absurd (h.symm.trans hrow) (by simp)

theorem Run.Leaves.paths {run : Run} {after : Database} (h : run.Leaves sha256 builds after) :
    (after.files.map (·.columns.path)).Perm
      ((run.observed.filter (Observed.parses (builds run.analysis))).map (·.path)) := by
  have hpaths := h.table.map (·.path)
  rw [List.map_map, Sequence.map_filterMap_eq (fun file hfile columns => content_path hfile)
    h.encoded] at hpaths
  exact hpaths

variable (builds) in
/-- After any history of runs, a run that returns leaves one row for each observed file that was
read whole and parses, with the columns that a forced run after any other history writes for the
same files. No insert meets a path that the table holds, so a run fails only with a fault or with
a row that does not encode, and then it writes nothing. -/
theorem index_rebuilds (hsha : Function.Injective sha256) (history : List Run) (run : Run) :
    ∃ settled, run.settled sha256 builds (indexed sha256 builds history) = some settled ∧
      Counted (Observed.fate sha256 (builds run.analysis)
        (run.stored (indexed sha256 builds history))) run.observed settled ∧
      (∀ before row rest files, settled.rows = before ++ row :: rest →
        insertAll (settled.delete.foldl deletePath (indexed sha256 builds history).files) before =
          .ok files →
        row.file.path ∉ files.map (·.columns.path)) ∧
      ((∃ counts after, run.index sha256 builds (indexed sha256 builds history) =
          (.ok (settled.report run.new.generation counts), after) ∧
          (after.files.map (·.columns.path)).Nodup ∧
          (after.files.map (·.columns.path)).Perm
            ((run.observed.filter (Observed.parses (builds run.analysis))).map (·.path)) ∧
          ∀ earlier : List Run, ∃ report rebuilt,
            run.forced.index sha256 builds (indexed sha256 builds earlier) =
              (.ok report, rebuilt) ∧
            (after.files.map (·.columns)).Perm (rebuilt.files.map (·.columns))) ∨
        ∃ error, run.index sha256 builds (indexed sha256 builds history) =
            (.error (.sql error), indexed sha256 builds history) ∧
          (run.fault = some error ∨
            ∃ row ∈ settled.rows, row.encoded.blobs = .error error)) := by
  have hdb := indexed_sound builds hsha history
  obtain ⟨settled, hsettled, hsettles, houtcome⟩ := index_spec run hsha hdb
  refine ⟨settled, hsettled, hsettles.counted, ?_, houtcome.imp_left ?_⟩
  · intro before row rest files hrows hfiles
    have hnodup := nodup_kept_append_rows hdb hsettles
    rw [hrows, List.map_append, ← List.append_assoc] at hnodup
    obtain ⟨hbefore, -, hdisjoint⟩ := List.nodup_append.mp hnodup
    rcases insertAll_spec before _ hbefore with ⟨after, hafter, hwritten, hcolumns, -⟩ |
      ⟨error, herror, -⟩
    · obtain rfl : after = files := Except.ok.inj (hafter.symm.trans hfiles)
      rw [paths_of_columns hwritten hcolumns]
      exact fun hmem => hdisjoint _ hmem _ List.mem_cons_self rfl
    · exact absurd (herror.symm.trans hfiles) (by simp)
  · rintro ⟨counts, after, hindex, hfault, hleaves⟩
    refine ⟨counts, after, hindex, hleaves.sound.paths, hleaves.paths, fun earlier => ?_⟩
    obtain ⟨report, rebuilt, hrebuilt, hforced⟩ :=
      forced_leaves hsha hfault hleaves (indexed_sound builds hsha earlier)
    exact ⟨report, rebuilt, hrebuilt, hleaves.table.trans hforced.table.symm⟩

namespace Sample

/-- The SHA-256 of the empty text. -/
def emptyDigest : Bytes :=
  [0xe3, 0xb0, 0xc4, 0x42, 0x98, 0xfc, 0x1c, 0x14, 0x9a, 0xfb, 0xf4, 0xc8, 0x99, 0x6f, 0xb9, 0x24,
   0x27, 0xae, 0x41, 0xe4, 0x64, 0x9b, 0x93, 0x4c, 0xa4, 0x95, 0x99, 0x1b, 0x78, 0x52, 0xb8, 0x55]

def charBytes (c : Char) : Bytes :=
  [UInt8.ofNat (c.toNat / 65536), UInt8.ofNat (c.toNat / 256), UInt8.ofNat c.toNat]

/-- A digest without collisions that is the SHA-256 on the empty text. -/
def digest (text : Text) : Bytes :=
  if text = [] then emptyDigest else text.flatMap charBytes

theorem toNat_lt (c : Char) : c.toNat < 1114112 := by
  rcases c.valid with h | ⟨-, h⟩
  · exact Nat.lt_trans h (by decide)
  · exact h

theorem charBytes_injective : Function.Injective charBytes := by
  intro a b h
  have ha := toNat_lt a
  have hb := toNat_lt b
  simp only [charBytes, List.cons.injEq, ← UInt8.toNat_inj, UInt8.toNat_ofNat', and_true] at h
  exact Char.toNat_inj.mp (by omega)

theorem flatMap_charBytes_injective : Function.Injective (List.flatMap charBytes) := by
  intro a
  induction a with
  | nil =>
    intro b h
    cases b with
    | nil => rfl
    | cons d b => simp [charBytes] at h
  | cons c a ih =>
    intro b h
    cases b with
    | nil => simp [charBytes] at h
    | cons d b =>
      simp only [List.flatMap_cons] at h
      obtain ⟨hc, ha⟩ := List.append_inj h rfl
      rw [charBytes_injective hc, ih ha]

theorem digest_injective : Function.Injective digest := by
  have hempty : ∀ text : Text, text ≠ [] → emptyDigest ≠ text.flatMap charBytes := by
    intro text htext
    obtain ⟨c, rest, rfl⟩ := List.exists_cons_of_ne_nil htext
    have hc := toNat_lt c
    simp only [emptyDigest, charBytes, List.flatMap_cons, List.cons_append, ne_eq,
      List.cons.injEq, not_and]
    intro h
    have h := congrArg UInt8.toNat h
    rw [UInt8.toNat_ofNat'] at h
    have : (0xe3 : UInt8).toNat = 227 := rfl
    omega
  intro a b h
  unfold digest at h
  split_ifs at h with ha hb hb
  · rw [ha, hb]
  · exact absurd h (hempty b hb)
  · exact absurd h.symm (hempty a ha)
  · exact flatMap_charBytes_injective h

/-- A language whose only file is empty. -/
def payload : Payload where
  Parsed := Unit
  Unparsable := Empty
  display := nofun
  Symbol := Empty
  Import := Empty
  Ref := Empty
  Span := Empty
  Manifest := Empty
  Block := Empty
  Metrics := Unit

def restBytes (rest : Rest payload) : Except Text Bytes :=
  match rest.modules with
  | none => .ok ("\x7b\"imports\":[],\"refs\":[],\"errors\":[]\x7d".toList.map
      fun c => UInt8.ofNat c.toNat)
  | some _ => .error []

theorem rest_eq {rest : Rest payload} {bytes : Bytes} (h : restBytes rest = .ok bytes) :
    Except.ok ⟨[], [], [], none, none⟩ = (.ok rest : Except Text (Rest payload)) := by
  obtain ⟨imports, refs, errors, manifest, modules⟩ := rest
  have hnil : ∀ items : List Empty, items = [] := fun items => by
    cases items with
    | nil => rfl
    | cons item _ => cases item
  cases modules with
  | some modules => simp [restBytes] at h
  | none =>
    cases manifest with
    | some manifest => cases manifest
    | none =>
      rw [hnil imports, hnil refs, hnil errors]
      rfl

def build : Build payload where
  parse _ _ := .ok ()
  extract _ := ⟨[], [], [], [], none, []⟩
  measured _ _ := .ok ⟨(), []⟩
  symbolsJson :=
    { toVec := fun _ => .ok [0x5b, 0x5d]
      fromSlice := fun _ => .ok []
      readsBack := fun {symbols _} _ => by cases symbols with | nil => rfl | cons a _ => cases a }
  restJson :=
    { toVec := restBytes
      fromSlice := fun _ => .ok ⟨[], [], [], none, none⟩
      readsBack := fun {rest _} h => rest_eq h }
  metricsJson :=
    { toVec := fun _ => .error []
      fromSlice := fun _ => .error []
      readsBack := nofun }

/-- A run over one empty file. -/
def run : Run where
  observed := [⟨"a.py".toList, .python, false, .text ⟨"a.py".toList, .python, []⟩⟩]
  analysis := []
  force := false
  new := ⟨"/r".toList, "t".toList, 0⟩
  fault := none
  distinct := by simp
  reads := by simp

end Sample

theorem index_rebuilds_empty_file :
    Function.Injective Sample.digest ∧
      ∃ settled, Sample.run.settled Sample.digest (fun _ => Sample.build)
          (indexed Sample.digest (fun _ => Sample.build) [Sample.run]) = some settled ∧
        settled.rows.length + settled.reused + settled.failures.length + settled.skips.length =
          1 := by
  obtain ⟨settled, hsettled, hcounted, -⟩ := index_rebuilds (fun _ => Sample.build)
    Sample.digest_injective [Sample.run] Sample.run
  exact ⟨Sample.digest_injective, settled, hsettled, hcounted.total⟩

end Agentless.Store
