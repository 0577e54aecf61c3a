import Agentless.Library.Fallible
import Agentless.Library.Terminated
import Agentless.Text.CodePointString

/-!
# The changes since a commit

The records of a raw diff are fields that NUL bytes end: one of metadata, then one path, or two for
a rename or a copy. Reading them gives back the changes that were written, and a text cut inside a
record is refused or ends in a cut path.
-/

namespace Agentless.Git.Changes

open Terminated

/-- What one side of a change is at its path. -/
inductive Side where
  | absent | file | link | gitlink
deriving DecidableEq, Repr

/-- One path that differs from the commit: the status letter, both paths, and both sides. -/
structure Change where
  status : Char
  path : Text
  oldPath : Text
  old : Side
  new : Side
deriving DecidableEq, Repr

inductive Malformed where
  | noMeta
  | noPath
  | mode (mode : Text)
deriving DecidableEq, Repr

section Read
variable (lossy : Bytes → Text)

def decoded (field : Bytes) : Text := (CodePointString.mk field).asStr.getD (lossy field)

/-- A final NUL ends the last field. It does not open an empty one. -/
def fields (raw : Bytes) : List Bytes :=
  if raw = [] then []
  else (if raw.getLast? = some 0 then raw.dropLast else raw).splitOn 0

/-- The metadata field is ":<old mode> <new mode> <old sha> <new sha> <status>". -/
def metaParts (text : Text) : Except Malformed (Text × Text × Char) :=
  match text with
  | ':' :: rest =>
    match rest.splitOn ' ' with
    | [old, new, _, _, status] =>
      match status with
      | letter :: _ => .ok (old, new, letter)
      | [] => .error .noMeta
    | _ => .error .noMeta
  | _ => .error .noMeta

def nextPath : List Bytes → Except Malformed (Text × List Bytes)
  | field :: rest => .ok (decoded lossy field, rest)
  | [] => .error .noPath

def side (mode : Text) : Except Malformed Side :=
  if mode = "000000".toList then .ok .absent
  else if mode = "100644".toList || mode = "100755".toList then .ok .file
  else if mode = "120000".toList then .ok .link
  else if mode = "160000".toList then .ok .gitlink
  else .error (.mode mode)

def twoPathStatuses : List Char := ['R', 'C']

/-- The path in the working tree, which a rename and a copy write after the path in the commit. -/
def newPath (status : Char) (oldPath : Text) (rest : List Bytes) :
    Except Malformed (Text × List Bytes) :=
  if status ∈ twoPathStatuses then nextPath lossy rest else .ok (oldPath, rest)

/-- A copy leaves its source in place, so the copy's old side is absent. -/
def oldSide (status : Char) (mode : Text) : Except Malformed Side :=
  if status = 'C' then .ok .absent else side mode

/-- One change and the fields after it. -/
def record (metaField : Bytes) (rest : List Bytes) : Except Malformed (Change × List Bytes) := do
  let (oldMode, newMode, status) ← metaParts (decoded lossy metaField)
  let (oldPath, rest) ← nextPath lossy rest
  let (path, rest) ← newPath lossy status oldPath rest
  let old ← oldSide status oldMode
  let new ← side newMode
  .ok (⟨status, path, oldPath, old, new⟩, rest)

theorem nextPath_eq_ok {rest after : List Bytes} {path : Text}
    (h : nextPath lossy rest = .ok (path, after)) : after.length < rest.length := by
  cases rest with
  | nil => cases h
  | cons field rest =>
    cases h
    exact Nat.lt_succ_self _

theorem length_of_record {metaField : Bytes} {rest after : List Bytes} {change : Change}
    (h : record lossy metaField rest = .ok (change, after)) : after.length < rest.length := by
  unfold record at h
  obtain ⟨⟨oldMode, newMode, status⟩, -, h⟩ := Except.bind_eq_ok_iff.mp h
  obtain ⟨⟨oldPath, more⟩, hold, h⟩ := Except.bind_eq_ok_iff.mp h
  obtain ⟨⟨path, last⟩, hnew, h⟩ := Except.bind_eq_ok_iff.mp h
  obtain ⟨old, -, h⟩ := Except.bind_eq_ok_iff.mp h
  obtain ⟨new, -, h⟩ := Except.bind_eq_ok_iff.mp h
  cases h
  have hfirst := nextPath_eq_ok lossy hold
  unfold newPath at hnew
  split at hnew
  · exact (nextPath_eq_ok lossy hnew).trans hfirst
  · cases hnew
    exact hfirst

/-- The records of the fields, up to the first that cannot be read. -/
def records : List Bytes → Except Malformed (List Change)
  | [] => .ok []
  | metaField :: rest =>
    match _hrecord : record lossy metaField rest with
    | .error malformed => .error malformed
    | .ok (change, rest) => do
      let changes ← records rest
      .ok (change :: changes)
termination_by fields => fields.length
decreasing_by
  have := length_of_record lossy _hrecord
  simp only [List.length_cons]
  omega

def parseChanges (raw : Bytes) : Except Malformed (List Change) := records lossy (fields raw)

end Read

/-! ## The records that git writes -/

/-- The modes that name a file type. -/
inductive Mode where
  | absent | regular | executable | link | gitlink
deriving DecidableEq, Repr

def Mode.text : Mode → Text
  | .absent => "000000".toList
  | .regular => "100644".toList
  | .executable => "100755".toList
  | .link => "120000".toList
  | .gitlink => "160000".toList

def Mode.side : Mode → Side
  | .absent => .absent
  | .regular | .executable => .file
  | .link => .link
  | .gitlink => .gitlink

/-- A text that can stand between the blanks of a metadata field. -/
def Solid (text : Text) : Prop := ' ' ∉ text ∧ '\x00' ∉ text

/-- One change with what else its record holds: both modes, both object names, and the score that
follows the status of a rename. -/
structure Listed where
  change : Change
  oldMode : Mode
  newMode : Mode
  oldSha : Text
  newSha : Text
  score : Text
  oldSide_eq : change.old = if change.status = 'C' then .absent else oldMode.side
  newSide_eq : change.new = newMode.side
  onePath : change.status ∉ twoPathStatuses → change.path = change.oldPath
  path_free : '\x00' ∉ change.path
  oldPath_free : '\x00' ∉ change.oldPath
  oldSha_solid : Solid oldSha
  newSha_solid : Solid newSha
  status_solid : Solid (change.status :: score)

/-- A renamed file of which nine tenths are as before. -/
def Listed.sample : Listed where
  change := ⟨'R', "b.rs".toList, "a.rs".toList, .file, .file⟩
  oldMode := .regular
  newMode := .executable
  oldSha := "83db48f".toList
  newSha := "bf8c6ad".toList
  score := "090".toList
  oldSide_eq := rfl
  newSide_eq := rfl
  onePath := by simp [twoPathStatuses]
  path_free := by decide
  oldPath_free := by decide
  oldSha_solid := ⟨by decide, by decide⟩
  newSha_solid := ⟨by decide, by decide⟩
  status_solid := ⟨by decide, by decide⟩

def Listed.metaText (listed : Listed) : Text :=
  ':' :: [' '].intercalate [listed.oldMode.text, listed.newMode.text, listed.oldSha, listed.newSha,
    listed.change.status :: listed.score]

def Listed.paths (listed : Listed) : List Text :=
  if listed.change.status ∈ twoPathStatuses then [listed.change.oldPath, listed.change.path]
  else [listed.change.oldPath]

def Listed.fields (listed : Listed) : List Bytes :=
  utf8 listed.metaText :: listed.paths.map utf8

def Listed.raw (listed : Listed) : Bytes := terminated 0 listed.fields

/-- What git prints for the changes. -/
def rawDiff (listed : List Listed) : Bytes := listed.flatMap Listed.raw

theorem rawDiff_eq (listed : List Listed) :
    rawDiff listed = terminated 0 (listed.flatMap Listed.fields) := by
  rw [terminated, List.flatMap_assoc]
  rfl

theorem exists_mode (side : Side) : ∃ mode : Mode, mode.side = side := by
  cases side with
  | absent => exact ⟨.absent, rfl⟩
  | file => exact ⟨.regular, rfl⟩
  | link => exact ⟨.link, rfl⟩
  | gitlink => exact ⟨.gitlink, rfl⟩

/-- Every change that git can list has a record. -/
theorem exists_listed {change : Change} (hcopy : change.status = 'C' → change.old = .absent)
    (hpath : change.status ∉ twoPathStatuses → change.path = change.oldPath)
    (hfree : '\x00' ∉ change.path) (hold : '\x00' ∉ change.oldPath)
    (hstatus : Solid [change.status]) : ∃ listed : Listed, listed.change = change := by
  obtain ⟨oldMode, holdMode⟩ := exists_mode change.old
  obtain ⟨newMode, hnewMode⟩ := exists_mode change.new
  refine ⟨⟨change, oldMode, newMode, [], [], [], ?_, hnewMode.symm, hpath, hfree, hold,
    ⟨List.not_mem_nil, List.not_mem_nil⟩, ⟨List.not_mem_nil, List.not_mem_nil⟩, hstatus⟩, rfl⟩
  split
  · next heq => exact hcopy heq
  · exact holdMode.symm

section Reading
variable {lossy : Bytes → Text}

@[simp] theorem decoded_utf8 (text : Text) : decoded lossy (utf8 text) = text := by
  rw [decoded, CodePointString.asStr_utf8, Option.getD_some]

theorem side_text (mode : Mode) : side mode.text = .ok mode.side := by
  cases mode <;> rfl

theorem solid_text (mode : Mode) : Solid mode.text := by
  cases mode <;> exact ⟨by decide, by decide⟩

theorem Listed.solid_parts (listed : Listed) : ∀ part ∈ [listed.oldMode.text, listed.newMode.text,
    listed.oldSha, listed.newSha, listed.change.status :: listed.score], Solid part := by
  intro part hpart
  simp only [List.mem_cons, List.not_mem_nil, or_false] at hpart
  rcases hpart with rfl | rfl | rfl | rfl | rfl
  · exact solid_text _
  · exact solid_text _
  · exact listed.oldSha_solid
  · exact listed.newSha_solid
  · exact listed.status_solid

theorem metaParts_metaText (listed : Listed) : metaParts listed.metaText =
    .ok (listed.oldMode.text, listed.newMode.text, listed.change.status) := by
  rw [Listed.metaText, metaParts, List.splitOn_intercalate ' ' (fun part hpart => (listed.solid_parts part hpart).1)
    (List.cons_ne_nil _ _)]

theorem Change.eq_of_onePath {change : Change} (h : change.path = change.oldPath) :
    ⟨change.status, change.oldPath, change.oldPath, change.old, change.new⟩ = change := by
  cases change
  cases h
  rfl

theorem record_fields (listed : Listed) (rest : List Bytes) :
    record lossy (utf8 listed.metaText) (listed.paths.map utf8 ++ rest) =
      .ok (listed.change, rest) := by
  have hold : oldSide listed.change.status listed.oldMode.text = .ok listed.change.old := by
    rw [oldSide, listed.oldSide_eq, side_text]
    split <;> rfl
  have hnew : side listed.newMode.text = .ok listed.change.new := by
    rw [side_text, listed.newSide_eq]
  unfold record Listed.paths newPath
  rw [decoded_utf8, metaParts_metaText]
  by_cases htwo : listed.change.status ∈ twoPathStatuses
  · simp [htwo, nextPath, hold, hnew, bind, Except.bind]
  · simp [htwo, nextPath, hold, hnew, bind, Except.bind]
    exact Change.eq_of_onePath (listed.onePath htwo)

theorem records_cons (metaField : Bytes) (rest : List Bytes) :
    records lossy (metaField :: rest) = (do
      let (change, rest) ← record lossy metaField rest
      let changes ← records lossy rest
      .ok (change :: changes)) := by
  rw [records]
  split
  · next malformed hrecord => rw [hrecord]; rfl
  · next change after hrecord => rw [hrecord]; rfl

/-- Whole records are read as their changes, whatever follows. -/
theorem records_append (listed : List Listed) (rest : List Bytes) :
    records lossy (listed.flatMap Listed.fields ++ rest) = (do
      let changes ← records lossy rest
      .ok (listed.map Listed.change ++ changes)) := by
  induction listed with
  | nil => cases h : records lossy rest <;> simp [h, bind, Except.bind]
  | cons first listed ih =>
    rw [List.flatMap_cons, Listed.fields, List.cons_append, List.cons_append, records_cons,
      List.append_assoc, record_fields]
    simp only [bind, Except.bind] at ih ⊢
    rw [ih]
    cases records lossy rest <;> rfl

theorem nul_notMem_utf8 {text : Text} (h : '\x00' ∉ text) : 0 ∉ utf8 text :=
  ascii_notMem_utf8 (c := '\x00') (by decide) h

theorem Listed.nul_notMem (listed : Listed) : ∀ field ∈ listed.fields, 0 ∉ field := by
  have hmeta : '\x00' ∉ listed.metaText := by
    intro hmem
    rcases List.mem_cons.mp hmem with heq | hmem
    · exact absurd heq (by decide)
    · rcases mem_or_mem_of_mem_intercalate hmem with hblank | ⟨part, hpart, hin⟩
      · exact absurd hblank (by decide)
      · exact (listed.solid_parts part hpart).2 hin
  intro field hfield
  rcases List.mem_cons.mp hfield with rfl | hfield
  · exact nul_notMem_utf8 hmeta
  · obtain ⟨path, hpath, rfl⟩ := List.mem_map.mp hfield
    apply nul_notMem_utf8
    unfold Listed.paths at hpath
    have hfree := listed.path_free
    have hold := listed.oldPath_free
    split at hpath <;> simp at hpath <;> grind

/-- The fields of a text that ends in a piece of a field, which counts when it is not empty. -/
theorem fields_terminated_append {whole : List Bytes} {part : Bytes}
    (hwhole : ∀ field ∈ whole, 0 ∉ field) (hpart : 0 ∉ part) :
    fields (terminated 0 whole ++ part) = whole ++ if part = [] then [] else [part] := by
  have hsplit := splitOn_terminated_append hwhole hpart
  unfold fields
  rcases List.eq_nil_or_concat part with rfl | ⟨before, last, rfl⟩
  · rw [List.append_nil] at hsplit ⊢
    rw [if_pos rfl, List.append_nil]
    rcases List.eq_nil_or_concat whole with rfl | ⟨others, field, rfl⟩
    · rfl
    · have hlast : terminated 0 (others ++ [field]) = (terminated 0 others ++ field) ++ [0] := by
        simp
      rw [List.concat_eq_append] at *
      rw [hlast] at hsplit ⊢
      rw [if_neg (by simp), List.getLast?_concat, if_pos rfl, List.dropLast_concat]
      rw [List.splitOn_append_cons_self, List.splitOn_nil] at hsplit
      exact List.append_cancel_right hsplit
  · rw [List.concat_eq_append] at *
    have hlast : last ≠ 0 := fun heq => hpart (heq ▸ List.mem_append_right _ List.mem_cons_self)
    rw [← List.append_assoc, if_neg (by simp), List.getLast?_concat, if_neg (by simpa using hlast),
      List.append_assoc, hsplit, if_neg (by simp)]

/-- Reading the records that git writes gives the changes back. -/
theorem parseChanges_rawDiff (listed : List Listed) :
    parseChanges lossy (rawDiff listed) = .ok (listed.map Listed.change) := by
  have hfree : ∀ field ∈ listed.flatMap Listed.fields, 0 ∉ field := fun field hfield => by
    obtain ⟨one, -, hfield⟩ := List.mem_flatMap.mp hfield
    exact one.nul_notMem field hfield
  have hfields := fields_terminated_append hfree (List.not_mem_nil (a := (0 : UInt8)))
  rw [List.append_nil] at hfields
  rw [parseChanges, rawDiff_eq, hfields, if_pos rfl, records_append]
  simp [records, bind, Except.bind]

/-! ## Texts cut inside a record -/

/-- The change with another last path, which is its only one unless it is a rename or a copy. -/
def Change.withLastPath (change : Change) (path : Text) : Change :=
  if change.status ∈ twoPathStatuses then { change with path } else { change with path, oldPath := path }

theorem record_nil (metaField : Bytes) : ∃ malformed, record lossy metaField [] = .error malformed := by
  unfold record
  cases metaParts (decoded lossy metaField) with
  | error malformed => exact ⟨malformed, rfl⟩
  | ok parts => exact ⟨.noPath, rfl⟩

theorem records_singleton (field : Bytes) : ∃ malformed, records lossy [field] = .error malformed := by
  obtain ⟨malformed, hrecord⟩ := @record_nil lossy field
  rw [records_cons, hrecord]
  exact ⟨malformed, rfl⟩

theorem records_short (listed : Listed) {paths : List Bytes}
    (h : paths.length < listed.paths.length) :
    ∃ malformed, records lossy (utf8 listed.metaText :: paths) = .error malformed := by
  unfold Listed.paths at h
  match paths with
  | [] => exact records_singleton _
  | [path] =>
    have htwo : listed.change.status ∈ twoPathStatuses := by
      by_contra hone
      simp [hone] at h
    rw [records_cons, record, decoded_utf8, metaParts_metaText]
    exact ⟨.noPath, by simp [newPath, htwo, nextPath, bind, Except.bind]⟩
  | path :: next :: more =>
    split at h <;> simp at h

theorem records_withLastPath (listed : Listed) {paths : List Text} {path : Text} (piece : Bytes)
    (h : listed.paths = paths ++ [path]) :
    records lossy (utf8 listed.metaText :: (paths.map utf8 ++ [piece])) =
      .ok [listed.change.withLastPath (decoded lossy piece)] := by
  have hold : oldSide listed.change.status listed.oldMode.text = .ok listed.change.old := by
    rw [oldSide, listed.oldSide_eq, side_text]
    split <;> rfl
  have hnew : side listed.newMode.text = .ok listed.change.new := by
    rw [side_text, listed.newSide_eq]
  unfold Listed.paths at h
  rw [records_cons, record, decoded_utf8, metaParts_metaText]
  by_cases htwo : listed.change.status ∈ twoPathStatuses
  · rw [if_pos htwo] at h
    have hpaths : paths ++ [path] = [listed.change.oldPath] ++ [listed.change.path] := h.symm
    rw [(List.append_inj' hpaths rfl).1]
    simp [newPath, htwo, nextPath, hold, hnew, bind, Except.bind, records, Change.withLastPath]
  · rw [if_neg htwo] at h
    have hpaths : paths ++ [path] = [] ++ [listed.change.oldPath] := h.symm
    rw [(List.append_inj' hpaths rfl).1]
    simp [newPath, htwo, nextPath, hold, hnew, bind, Except.bind, records, Change.withLastPath]

theorem Listed.getLast_paths (listed : Listed) : ∃ paths, listed.paths = paths ++ [listed.change.path] := by
  unfold Listed.paths
  by_cases htwo : listed.change.status ∈ twoPathStatuses
  · exact ⟨[listed.change.oldPath], by simp [htwo]⟩
  · exact ⟨[], by simp [htwo, listed.onePath htwo]⟩

theorem records_cut (listed : Listed) {done after : List Bytes} {field piece : Bytes}
    (hfields : listed.fields = done ++ field :: after) (hpiece : piece <+: field)
    (hne : done ≠ [] ∨ piece ≠ []) :
    (∃ malformed, records lossy (done ++ if piece = [] then [] else [piece]) = .error malformed) ∨
      ∃ cut, cut <+: utf8 listed.change.path ∧
        records lossy (done ++ if piece = [] then [] else [piece]) =
          .ok [listed.change.withLastPath (decoded lossy cut)] := by
  cases done with
  | nil =>
    rw [if_neg (hne.resolve_left fun h => h rfl)]
    exact .inl (records_singleton piece)
  | cons first done =>
    rw [Listed.fields, List.cons_append] at hfields
    obtain ⟨rfl, hpaths⟩ := List.cons.inj hfields
    have hlength := congrArg List.length hpaths
    rw [List.length_map, List.length_append, List.length_cons] at hlength
    rw [List.cons_append]
    by_cases hshort : (done ++ if piece = [] then [] else [piece]).length < listed.paths.length
    · exact .inl (records_short listed hshort)
    · have hwhole : piece ≠ [] ∧ after = [] := by
        rw [List.length_append] at hshort
        split at hshort
        · rw [List.length_nil] at hshort
          omega
        · next hpiece => exact ⟨hpiece, List.length_eq_zero_iff.mp (by simp at hshort; omega)⟩
      obtain ⟨paths, hlast⟩ := listed.getLast_paths
      rw [hwhole.2, hlast, List.map_append] at hpaths
      obtain ⟨hdone, hfield⟩ := List.append_inj' hpaths rfl
      obtain ⟨rfl, -⟩ := List.cons.inj hfield
      rw [if_neg hwhole.1, ← hdone]
      exact .inr ⟨piece, hpiece, records_withLastPath listed piece hlast⟩

/-- A text cut inside a record is refused, or ends in a cut last path of that record. The records
before it are read whole. -/
theorem parseChanges_cut (before : List Listed) (last : Listed) {part : Bytes}
    (hpart : part <+: last.raw) (hne : part ≠ []) (hcut : part ≠ last.raw) :
    (∃ malformed, parseChanges lossy (rawDiff before ++ part) = .error malformed) ∨
      ∃ cut, cut <+: utf8 last.change.path ∧ parseChanges lossy (rawDiff before ++ part) =
        .ok (before.map Listed.change ++ [last.change.withLastPath (decoded lossy cut)]) := by
  obtain ⟨done, piece, rfl, hend⟩ := exists_of_prefix hpart
  rcases hend with ⟨rfl, rfl⟩ | ⟨field, after, hfields, hpiece⟩
  · exact absurd (List.append_nil _) hcut
  · have hnul := last.nul_notMem
    rw [hfields] at hnul
    have hwhole : ∀ one ∈ before.flatMap Listed.fields ++ done, 0 ∉ one := fun one hone => by
      rcases List.mem_append.mp hone with hbefore | hdone
      · obtain ⟨listed, -, hfield⟩ := List.mem_flatMap.mp hbefore
        exact listed.nul_notMem one hfield
      · exact hnul one (List.mem_append_left _ hdone)
    have hfree : 0 ∉ piece := fun hmem =>
      hnul field (List.mem_append_right _ List.mem_cons_self) (hpiece.subset hmem)
    have hsome : done ≠ [] ∨ piece ≠ [] := by
      by_contra hnone
      obtain ⟨hdone, hnil⟩ := not_or.mp hnone
      exact hne (by rw [not_not.mp hdone, not_not.mp hnil]; rfl)
    have hparse : parseChanges lossy (rawDiff before ++ (terminated 0 done ++ piece)) = (do
        let changes ← records lossy (done ++ if piece = [] then [] else [piece])
        .ok (before.map Listed.change ++ changes)) := by
      rw [parseChanges, rawDiff_eq, ← List.append_assoc, ← terminated_append,
        fields_terminated_append hwhole hfree, List.append_assoc, records_append]
    rw [hparse]
    rcases @records_cut lossy last _ _ _ _ hfields hpiece hsome with ⟨malformed, herror⟩ |
      ⟨cut, hcut, hok⟩
    · rw [herror]
      exact .inl ⟨malformed, rfl⟩
    · rw [hok]
      exact .inr ⟨cut, hcut, rfl⟩

end Reading

end Agentless.Git.Changes
