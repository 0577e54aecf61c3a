import Agentless.Library.Assoc
import Agentless.Patch.Applied

/-!
# Applying edits as a model of lines

1. The edits of a path are applied to its own text, whatever edits of other paths stand between
   them.
2. An edit replaces the lines it searches for where they stand in exactly one place.
3. So a run of edits is, for each path, a run over lists of lines.
-/

namespace Agentless.Patch

open Text

/-! ## The edits of one path -/

section Own

variable (quoted : Text → Text) (contents : Text → Option Text)

/-- The edits that name `path`. -/
def ownEdits (edits : List Edit) (path : Text) : List Edit :=
  edits.filter fun edit => edit.path = path

/-- The outcomes of the edits that name `path`. -/
def ownOutcomes (outcomes : List EditOutcome) (path : Text) : List EditOutcome :=
  outcomes.filter fun outcome => outcome.edit.path = path

/-- The file after `edits`, and the outcome of each. -/
def FileState.run (file : FileState) (edits : List Edit) : FileState × List EditOutcome :=
  edits.foldl (fun (file, outcomes) edit =>
    (file.edited quoted edit, outcomes ++ [(file.apply quoted edit).1])) (file, [])

theorem FileState.run_concat (file : FileState) (edits : List Edit) (edit : Edit) :
    file.run quoted (edits ++ [edit]) =
      ((file.run quoted edits).1.edited quoted edit,
        (file.run quoted edits).2 ++ [((file.run quoted edits).1.apply quoted edit).1]) := by
  simp [FileState.run]

theorem FileState.edit_apply (file : FileState) (edit : Edit) :
    (file.apply quoted edit).1.edit = edit := by
  unfold FileState.apply
  split
  · rfl
  · split <;> rfl

theorem ownEdits_concat (edits : List Edit) (edit : Edit) (path : Text) :
    ownEdits (edits ++ [edit]) path =
      if edit.path = path then ownEdits edits path ++ [edit] else ownEdits edits path := by
  unfold ownEdits
  rw [List.filter_append]
  split_ifs with hpath <;> simp [hpath]

theorem ownOutcomes_concat (outcomes : List EditOutcome) (outcome : EditOutcome) (path : Text) :
    ownOutcomes (outcomes ++ [outcome]) path =
      if outcome.edit.path = path then ownOutcomes outcomes path ++ [outcome]
      else ownOutcomes outcomes path := by
  unfold ownOutcomes
  rw [List.filter_append]
  split_ifs with hpath <;> simp [hpath]

/-- What a run does to a path, its own edits do to its file. -/
theorem Applying.own_after (edits : List Edit) (path : Text) :
    (FileState.new path (contents path)).run quoted (ownEdits edits path) =
      ((Applying.after quoted contents edits).current contents path,
        ownOutcomes (Applying.after quoted contents edits).outcomes path) := by
  induction edits using List.reverseRecOn with
  | nil => rfl
  | append_singleton edits edit ih =>
    have houtcomes : ((Applying.after quoted contents edits).step quoted contents edit).outcomes =
        (Applying.after quoted contents edits).outcomes ++
          [(((Applying.after quoted contents edits).current contents edit.path).apply quoted edit).1] := by
      rw [Applying.step_eq]
    rw [Applying.after_concat, Applying.current_step, houtcomes, ownEdits_concat,
      ownOutcomes_concat, FileState.edit_apply]
    by_cases hpath : edit.path = path
    · subst hpath
      rw [if_pos rfl, if_pos rfl, if_pos rfl, FileState.run_concat, ih]
    · rw [if_neg hpath, if_neg hpath, if_neg (Ne.symm hpath), ih]

/-- A path's outcomes and its text depend on its base text and on its own edits only: two runs
that agree on these agree on the path. -/
theorem applyEdits_own (contents' : Text → Option Text) (edits edits' : List Edit) (path : Text)
    (hedits : ownEdits edits path = ownEdits edits' path) (hbase : contents path = contents' path) :
    ownOutcomes (applyEdits quoted edits contents).outcomes path =
      ownOutcomes (applyEdits quoted edits' contents').outcomes path ∧
    textAfter quoted contents edits path = textAfter quoted contents' edits' path := by
  have hleft := Applying.own_after quoted contents edits path
  have hright := Applying.own_after quoted contents' edits' path
  rw [hedits, hbase, hright] at hleft
  obtain ⟨hcurrent, houtcomes⟩ := Prod.mk.inj hleft
  refine ⟨houtcomes.symm, ?_⟩
  rw [textAfter_eq, textAfter_eq, hcurrent]

/-- Two edits of different files in either order. -/
theorem applyEdits_own_swapped :
    ownOutcomes (applyEdits id [⟨0, "a".toList, "x".toList, "y".toList⟩,
        ⟨1, "b".toList, "x".toList, "z".toList⟩] fun _ => some "x".toList).outcomes "a".toList =
      ownOutcomes (applyEdits id [⟨1, "b".toList, "x".toList, "z".toList⟩,
        ⟨0, "a".toList, "x".toList, "y".toList⟩] fun _ => some "x".toList).outcomes "a".toList ∧
    textAfter id (fun _ => some "x".toList) [⟨0, "a".toList, "x".toList, "y".toList⟩,
        ⟨1, "b".toList, "x".toList, "z".toList⟩] "a".toList =
      textAfter id (fun _ => some "x".toList) [⟨1, "b".toList, "x".toList, "z".toList⟩,
        ⟨0, "a".toList, "x".toList, "y".toList⟩] "a".toList :=
  applyEdits_own id (fun _ => some "x".toList) (fun _ => some "x".toList) _ _ "a".toList
    (by decide) rfl

end Own

/-! ## One edit on lines -/

/-- The positions of the lines at which `block` stands, overlapping ones included. -/
def positions (block lines : List Text) : List Nat :=
  (List.range lines.length).filter fun i => block.isPrefixOf (lines.drop i)

theorem positions_cons (block : List Text) (line : Text) (lines : List Text) :
    positions block (line :: lines) =
      (if block.isPrefixOf (line :: lines) then [0] else []) ++
        (positions block lines).map (· + 1) := by
  unfold positions
  rw [List.length_cons, List.range_succ_eq_map, List.filter_cons, List.filter_map]
  split_ifs <;> simp_all [Function.comp_def]

theorem occurrences_eq_map_positions (block lines : List Text) (offset : Nat) :
    occurrences block lines offset =
      (positions block lines).map fun i => offset + (started (lines.take i)).length := by
  induction lines generalizing offset with
  | nil => rfl
  | cons line lines ih =>
    rw [positions_cons, occurrences, ih]
    split_ifs <;>
      simp [started_cons, Function.comp_def, Nat.add_assoc, Nat.add_comm, Nat.add_left_comm]

theorem withoutPrefix_eq_self {side : Text} (h : ¬elisionPrefix <+: side) :
    withoutPrefix side = side := by
  unfold withoutPrefix
  split
  · rename_i rest hrest
    exact absurd ⟨rest, (stripPrefix_eq_some.mp hrest).symm⟩ h
  · rfl

/-- An edit without an elision line is resolved to its own two sides. -/
theorem resolveElisions_eq_self {search replace : Text} (hbare : search ≠ elision)
    (hsearch : ¬elisionPrefix <+: search) (hreplace : ¬elisionPrefix <+: replace) (content : Text) :
    resolveElisions search replace content = .ok ⟨search, replace⟩ := by
  unfold resolveElisions
  dsimp only
  rw [if_neg hbare, withoutPrefix_eq_self hsearch, withoutPrefix_eq_self hreplace]

/-- One edit on the lines of a text: its status, the number of places where its resolved search
lines stand, and the text after it. -/
def lineEdit (edit : Edit) (content : Text) : EditStatus × Nat × Text :=
  if edit.search = [] then (.noAnchor, 0, content)
  else
    match resolveElisions edit.search edit.replace content with
    | .error _ => (.noAnchor, 0, content)
    | .ok ⟨search, replace⟩ =>
      let lines := splitLines content
      match positions (splitLines search) lines with
      | [] => (.notFound, 0, content)
      | [i] => (.applied, 1, joinLines (lines.take i ++ splitLines replace ++
          lines.drop (i + (splitLines search).length)))
      | starts => (.ambiguous, starts.length, content)

/-- The text after a run of edits on its lines. -/
def lineText (edits : List Edit) (base : Text) : Text :=
  edits.foldl (fun content edit => (lineEdit edit content).2.2) base

section Refinement

variable (quoted : Text → Text)

theorem mem_positions {block lines : List Text} {i : Nat} (h : i ∈ positions block lines) :
    lines = lines.take i ++ block ++ lines.drop (i + block.length) := by
  obtain ⟨after, hafter⟩ := List.isPrefixOf_iff_prefix.mp (List.mem_filter.mp h).2
  have hdrop : lines.drop (i + block.length) = after := by
    rw [← List.drop_drop, ← hafter, List.drop_left]
  rw [hdrop, List.append_assoc, hafter, List.take_append_drop]

theorem spliced_position {search content : Text} {i : Nat} (replace : Text)
    (h : i ∈ positions (splitLines search) (splitLines content)) :
    spliced (pad content) search replace (started ((splitLines content).take i)).length =
      joinLines ((splitLines content).take i ++ splitLines replace ++
        (splitLines content).drop (i + (splitLines search).length)) := by
  have hspliced := spliced_eq ((splitLines content).take i)
    ((splitLines content).drop (i + (splitLines search).length)) (splitLines_ne_nil search)
    (splitLines_ne_nil replace)
  rw [joinLines_splitLines, joinLines_splitLines, ← mem_positions h] at hspliced
  rw [pad_eq content, hspliced]

theorem wholeLineStarts_eq (search content : Text) :
    wholeLineStarts (pad content) search =
      (positions (splitLines search) (splitLines content)).map fun i =>
        (started ((splitLines content).take i)).length := by
  rw [wholeLineStarts, pad_eq search, pad_eq content, offsets_started (splitLines_ne_nil search)
    (unbroken_splitLines search) (unbroken_splitLines content), occurrences_eq_map_positions]
  simp

/-- An edit of a file that exists does on its text what it does on the lines of the text. -/
theorem apply_eq_lineEdit {file : FileState} {base : Text} (h : file.original = some base)
    (edit : Edit) :
    ((file.apply quoted edit).1.status, (file.apply quoted edit).1.found,
      (file.edited quoted edit).content) = lineEdit edit file.content := by
  unfold FileState.edited FileState.apply
  rw [h]
  dsimp only
  unfold placed lineEdit
  split_ifs with hsearch
  · rfl
  · cases resolveElisions edit.search edit.replace file.content with
    | error reason => rfl
    | ok elided =>
      dsimp only
      rw [wholeLineStarts_eq]
      cases hpositions : positions (splitLines elided.search) (splitLines file.content) with
      | nil => rfl
      | cons i more =>
        cases more with
        | nil =>
          have hspliced := spliced_position elided.replace
            (hpositions ▸ List.mem_singleton_self i : i ∈ _)
          simp [FileState.write, hspliced]
        | cons j more => simp [FileState.write]

variable (contents : Text → Option Text)

theorem FileState.original_run (file : FileState) (edits : List Edit) :
    (file.run quoted edits).1.original = file.original := by
  induction edits using List.reverseRecOn with
  | nil => rfl
  | append_singleton edits edit ih =>
    rw [FileState.run_concat]
    exact ih

theorem FileState.path_run (file : FileState) (edits : List Edit) :
    (file.run quoted edits).1.path = file.path := by
  induction edits using List.reverseRecOn with
  | nil => rfl
  | append_singleton edits edit ih =>
    rw [FileState.run_concat]
    exact ih

theorem FileState.content_run {file : FileState} {base : Text} (h : file.original = some base)
    (edits : List Edit) : (file.run quoted edits).1.content = lineText edits file.content := by
  induction edits using List.reverseRecOn with
  | nil => rfl
  | append_singleton edits edit ih =>
    have horiginal := (FileState.original_run quoted file edits).trans h
    have hline := congrArg (fun outcome => outcome.2.2) (apply_eq_lineEdit quoted horiginal edit)
    rw [FileState.run_concat, lineText, List.foldl_concat]
    simpa [ih, lineText] using hline

theorem Applying.original_after (edits : List Edit) (path : Text) :
    ((Applying.after quoted contents edits).current contents path).original = contents path := by
  have horiginal :=
    FileState.original_run quoted (FileState.new path (contents path)) (ownEdits edits path)
  rwa [Applying.own_after] at horiginal

/-- The file of a path in a run holds the lines that its own edits leave. -/
theorem Applying.current_after (edits : List Edit) {path base : Text}
    (hbase : contents path = some base) :
    (Applying.after quoted contents edits).current contents path =
      ⟨path, some base, lineText (ownEdits edits path) base⟩ := by
  have hrun : ((FileState.new path (some base)).run quoted (ownEdits edits path)).1 =
      (Applying.after quoted contents edits).current contents path := by
    rw [← hbase, Applying.own_after]
  have hpath := FileState.path_run quoted (FileState.new path (some base)) (ownEdits edits path)
  have horiginal :=
    FileState.original_run quoted (FileState.new path (some base)) (ownEdits edits path)
  have hcontent : ((FileState.new path (some base)).run quoted (ownEdits edits path)).1.content = _ :=
    FileState.content_run quoted rfl (ownEdits edits path)
  rw [hrun] at hpath horiginal hcontent
  generalize (Applying.after quoted contents edits).current contents path = file at *
  cases file
  simp_all [FileState.new]

theorem Applying.paths_after (edits : List Edit) :
    (Applying.after quoted contents edits).files.map FileState.path =
      (edits.map Edit.path).eraseDups := by
  induction edits using List.reverseRecOn with
  | nil => rfl
  | append_singleton edits edit ih =>
    have hwritten (files : List FileState) (text : Option Text) :
        (files.map fun other => if other.path = edit.path then other.write text else other).map
          FileState.path = files.map FileState.path := by
      rw [List.map_map]
      congr 1
      funext other
      dsimp only [Function.comp_apply]
      split <;> rfl
    rw [Applying.after_concat, Applying.step_eq, List.map_append, List.map_singleton,
      Assoc.eraseDups_concat]
    dsimp only
    rw [hwritten, ← ih]
    unfold withFile
    have hnamed : (Applying.after quoted contents edits).files.any (fun file => file.path = edit.path) ↔
        edit.path ∈ edits.map Edit.path := by
      rw [← List.mem_eraseDups, ← ih, List.mem_map, List.any_eq_true]
      simp only [decide_eq_true_eq]
    by_cases hmem : edit.path ∈ edits.map Edit.path
    · rw [if_pos (hnamed.mpr hmem), if_pos hmem]
    · rw [if_neg (mt hnamed.mp hmem), if_neg hmem, List.map_append]
      rfl

theorem find?_path_of_mem {files : List FileState} {file : FileState}
    (hnodup : (files.map FileState.path).Nodup) (hfile : file ∈ files) :
    files.find? (fun other => other.path = file.path) = some file := by
  induction files with
  | nil => cases hfile
  | cons first files ih =>
    obtain ⟨hfirst, hnodup⟩ := List.nodup_cons.mp hnodup
    rcases List.mem_cons.mp hfile with rfl | hfile
    · simp
    · have hne : first.path ≠ file.path := fun heq => hfirst (heq ▸ List.mem_map_of_mem hfile)
      simpa [hne] using ih hnodup hfile

/-- The new texts are those of the files that the edits name, where they changed. -/
theorem newContents_eq (edits : List Edit) :
    (applyEdits quoted edits contents).newContents =
      (edits.map Edit.path).eraseDups.filterMap fun path =>
        ((Applying.after quoted contents edits).current contents path).changed := by
  have hkept := Applying.kept_after quoted contents edits
  rw [← Applying.paths_after quoted contents, List.filterMap_map]
  change (Applying.after quoted contents edits).files.filterMap FileState.changed = _
  refine List.filterMap_congr fun file hfile => ?_
  simp [Applying.current, find?_path_of_mem hkept.nodup hfile]

/-- A run of edits is a run over lists of lines. Each edit has the outcome that it has on the lines
which the earlier edits of its path left, and the new texts are those of the files whose lines
changed, in the order of their first edit. The lines of an edit without an elision line are those of
its own two sides. -/
theorem applyEdits_lines (edits : List Edit) :
    (∀ search replace, search ≠ elision → ¬elisionPrefix <+: search → ¬elisionPrefix <+: replace →
      ∀ content, resolveElisions search replace content = .ok ⟨search, replace⟩) ∧
    (applyEdits quoted edits contents).outcomes.length = edits.length ∧
    (∀ index edit, edits[index]? = some edit →
      ∃ outcome, (applyEdits quoted edits contents).outcomes[index]? = some outcome ∧
        outcome.edit = edit ∧
        match contents edit.path with
        | none => outcome.status = .noSuchFile
        | some base =>
          (outcome.status, outcome.found) =
            ((lineEdit edit (lineText (ownEdits (edits.take index) edit.path) base)).1,
              (lineEdit edit (lineText (ownEdits (edits.take index) edit.path) base)).2.1)) ∧
    (applyEdits quoted edits contents).newContents =
      (edits.map Edit.path).eraseDups.filterMap fun path =>
        (contents path).bind fun base =>
          if base ≠ lineText (ownEdits edits path) base then
            some (path, lineText (ownEdits edits path) base)
          else none := by
  refine ⟨fun _ _ => resolveElisions_eq_self, ?_, fun index edit hedit => ?_, ?_⟩
  · obtain ⟨outcomes, houtcomes, hlength⟩ := Applying.outcomes_after quoted contents [] edits
    change (Applying.after quoted contents edits).outcomes.length = _
    rw [List.nil_append] at houtcomes
    rw [houtcomes, List.length_append, hlength]
    exact Nat.zero_add _
  · refine ⟨_, Applying.getElem?_outcomes quoted contents hedit, FileState.edit_apply quoted _ edit, ?_⟩
    cases hbase : contents edit.path with
    | none =>
      have horiginal := Applying.original_after quoted contents (edits.take index) edit.path
      rw [hbase] at horiginal
      simp [FileState.apply, horiginal]
    | some base =>
      dsimp only
      rw [Applying.current_after quoted contents _ hbase]
      have hline := @apply_eq_lineEdit quoted
        ⟨edit.path, some base, lineText (ownEdits (edits.take index) edit.path) base⟩ base rfl edit
      rw [← hline]
  · rw [newContents_eq]
    refine List.filterMap_congr fun path _ => ?_
    cases hbase : contents path with
    | none =>
      have horiginal := Applying.original_after quoted contents edits path
      rw [hbase] at horiginal
      simp [FileState.changed, horiginal]
    | some base =>
      rw [Applying.current_after quoted contents _ hbase]
      simp [FileState.changed]

end Refinement

end Agentless.Patch
