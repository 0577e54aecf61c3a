import Agentless.Patch.Placed

/-!
# Edits of a diff applied one after the other

1. A state of the run gives each path a file, and a step changes the file of its edit only.
2. The result reports each file as the run leaves it.
3. So every edit that applies makes the change of its hunk exactly when that hunk is plain in
   the text that the edits before it left.
-/

namespace Agentless.Patch

open Text

section Run

variable (quoted : Text → Text) (contents : Text → Option Text)

/-- The file at `path` in a state, as its first edit finds it when no edit named it yet. -/
def Applying.current (state : Applying) (path : Text) : FileState :=
  (state.files.find? fun file => file.path = path).getD (FileState.new path (contents path))

/-- The file after one edit. -/
def FileState.edited (file : FileState) (edit : Edit) : FileState :=
  file.write (file.apply quoted edit).2

theorem find?_withFile (files : List FileState) (path : Text) (original : Option Text) :
    (withFile files path original).find? (fun file => file.path = path) =
      some ((files.find? fun file => file.path = path).getD (FileState.new path original)) := by
  unfold withFile
  split
  · rename_i hany
    obtain ⟨file, hfile⟩ := List.find?_isSome.mpr (List.any_eq_true.mp hany) |> Option.isSome_iff_exists.mp
    rw [hfile]
    rfl
  · rename_i hnone
    have habsent : files.find? (fun file => file.path = path) = none := by
      simpa using hnone
    rw [List.find?_append, habsent]
    simp [FileState.new]

theorem find?_withFile_of_ne (files : List FileState) {path other : Text} (h : other ≠ path)
    (original : Option Text) :
    (withFile files path original).find? (fun file => file.path = other) =
      files.find? fun file => file.path = other := by
  unfold withFile
  split
  · rfl
  · simp [List.find?_append, FileState.new, Ne.symm h]

theorem find?_map_content (files : List FileState) (path : Text) (write : FileState → FileState)
    (h : ∀ file, (write file).path = file.path) :
    (files.map write).find? (fun file => file.path = path) =
      (files.find? fun file => file.path = path).map write := by
  rw [List.find?_map]
  simp [h]

theorem Applying.step_eq (state : Applying) (edit : Edit) :
    state.step quoted contents edit =
      { files := (withFile state.files edit.path (contents edit.path)).map fun other =>
          if other.path = edit.path then
            other.write ((state.current contents edit.path).apply quoted edit).2
          else other
        outcomes := state.outcomes ++ [((state.current contents edit.path).apply quoted edit).1] } := by
  unfold Applying.step
  simp only [find?_withFile]
  rfl

/-- A step changes the file that its edit names. -/
theorem Applying.current_step (state : Applying) (edit : Edit) (path : Text) :
    (state.step quoted contents edit).current contents path =
      if path = edit.path then (state.current contents edit.path).edited quoted edit
      else state.current contents path := by
  rw [Applying.step_eq, Applying.current]
  dsimp only
  rw [find?_map_content _ _ _ (fun file => by split <;> rfl)]
  split
  · rename_i hpath
    subst hpath
    have hcurrent : (state.current contents edit.path).path = edit.path := by
      unfold Applying.current
      cases hfound : state.files.find? fun file => file.path = edit.path with
      | none => rfl
      | some file => simpa using List.find?_some hfound
    rw [find?_withFile, Option.map_some, Option.getD_some]
    exact if_pos hcurrent
  · rename_i hpath
    rw [find?_withFile_of_ne _ hpath]
    cases hfound : state.files.find? fun file => file.path = path with
    | none => simp [Applying.current, hfound]
    | some file =>
      have hfile : file.path ≠ edit.path := by
        have hname : file.path = path := by simpa using List.find?_some hfound
        rwa [hname]
      simp [Applying.current, hfound, hfile]

/-- The state after `edits`. -/
def Applying.after (edits : List Edit) : Applying := edits.foldl (Applying.step quoted contents) {}

theorem Applying.after_concat (edits : List Edit) (edit : Edit) :
    Applying.after quoted contents (edits ++ [edit]) =
      (Applying.after quoted contents edits).step quoted contents edit := by
  simp [Applying.after]

theorem Applying.outcomes_after (edits more : List Edit) :
    ∃ outcomes, (Applying.after quoted contents (edits ++ more)).outcomes =
        (Applying.after quoted contents edits).outcomes ++ outcomes ∧
      outcomes.length = more.length := by
  induction more using List.reverseRecOn with
  | nil => exact ⟨[], by simp⟩
  | append_singleton more edit ih =>
    obtain ⟨outcomes, houtcomes, hlength⟩ := ih
    rw [← List.append_assoc, Applying.after_concat, Applying.step_eq]
    exact ⟨outcomes ++ [_], by simp [houtcomes]; rfl, by simp [hlength]⟩

/-- The outcome of an edit is its outcome against the file that the edits before it left. -/
theorem Applying.getElem?_outcomes {edits : List Edit} {index : Nat} {edit : Edit}
    (h : edits[index]? = some edit) :
    (Applying.after quoted contents edits).outcomes[index]? =
      some (((Applying.after quoted contents (edits.take index)).current contents
        edit.path).apply quoted edit).1 := by
  obtain ⟨hlt, hedit⟩ := List.getElem?_eq_some_iff.mp h
  obtain ⟨outcomes, houtcomes, hlength⟩ :=
    Applying.outcomes_after quoted contents [] (edits.take index)
  obtain ⟨rest, hrest, -⟩ := Applying.outcomes_after quoted contents (edits.take (index + 1))
    (edits.drop (index + 1))
  have hcount : (Applying.after quoted contents (edits.take index)).outcomes.length = index := by
    rw [List.nil_append] at houtcomes
    rw [houtcomes, List.length_append, hlength, List.length_take]
    have : (Applying.after quoted contents []).outcomes.length = 0 := rfl
    omega
  rw [List.take_append_drop] at hrest
  rw [hrest, List.take_add_one, h, Option.toList_some, Applying.after_concat, Applying.step_eq]
  simp [hcount]

/-! ## The texts of a run -/

/-- Each path has one file, with the text before the edits as its original. -/
structure Applying.Kept (state : Applying) : Prop where
  nodup : (state.files.map FileState.path).Nodup
  original : ∀ file ∈ state.files, file.original = contents file.path

theorem Applying.Kept.step {state : Applying} (h : state.Kept contents) (edit : Edit) :
    (state.step quoted contents edit).Kept contents := by
  have hfiles : ((withFile state.files edit.path (contents edit.path)).map FileState.path).Nodup ∧
      ∀ file ∈ withFile state.files edit.path (contents edit.path),
        file.original = contents file.path := by
    unfold withFile
    split
    · exact ⟨h.nodup, h.original⟩
    · rename_i habsent
      refine ⟨?_, ?_⟩
      · rw [List.map_append, List.nodup_append]
        refine ⟨h.nodup, by simp, ?_⟩
        simp [FileState.new] at habsent ⊢
        exact habsent
      · exact List.forall_mem_append.mpr ⟨h.original, by simp [FileState.new]⟩
  rw [Applying.step_eq]
  refine ⟨?_, ?_⟩
  · rw [List.map_map]
    convert hfiles.1 using 2
    funext file
    simp only [Function.comp_apply]
    split <;> rfl
  · intro file hfile
    obtain ⟨other, hother, rfl⟩ := List.mem_map.mp hfile
    split <;> exact hfiles.2 other hother

theorem Applying.kept_after (edits : List Edit) :
    (Applying.after quoted contents edits).Kept contents := by
  induction edits using List.reverseRecOn with
  | nil => exact ⟨by simp [Applying.after], by simp [Applying.after]⟩
  | append_singleton edits edit ih =>
    rw [Applying.after_concat]
    exact ih.step quoted contents edit

/-- The text of the file at `path` after `edits`: its new text, or the text it had. -/
def textAfter (edits : List Edit) (path : Text) : Option Text :=
  ((applyEdits quoted edits contents).newContents.lookup path).or (contents path)

theorem FileState.changed_path {file : FileState} {entry : Text × Text}
    (h : file.changed = some entry) : entry.1 = file.path := by
  unfold FileState.changed at h
  split at h
  · simp at h
  · split at h
    · obtain rfl := Option.some.inj h
      rfl
    · simp at h

theorem lookup_changed {files : List FileState} (h : (files.map FileState.path).Nodup)
    (path : Text) :
    (files.filterMap FileState.changed).lookup path =
      (files.find? fun file => file.path = path).bind fun file => file.changed.map Prod.snd := by
  induction files with
  | nil => rfl
  | cons file files ih =>
    obtain ⟨hfile, hfiles⟩ := List.nodup_cons.mp h
    have hrest := ih hfiles
    by_cases hpath : file.path = path
    · have habsent : files.find? (fun other => other.path = path) = none := by
        rw [List.find?_eq_none]
        intro other hother heq
        refine hfile (List.mem_map.mpr ⟨other, hother, ?_⟩)
        rw [hpath]
        simpa using heq
      rw [habsent] at hrest
      cases hchanged : file.changed with
      | none => simpa [hchanged, hpath] using hrest
      | some pair =>
        obtain ⟨name, text⟩ := pair
        obtain rfl : name = file.path := FileState.changed_path hchanged
        simp [hchanged, hpath]
    · cases hchanged : file.changed with
      | none => simpa [hchanged, hpath] using hrest
      | some pair =>
        obtain ⟨name, text⟩ := pair
        obtain rfl : name = file.path := FileState.changed_path hchanged
        have hother : (path == file.path) = false := by simpa using Ne.symm hpath
        simpa [hchanged, hpath, List.lookup_cons, hother] using hrest

theorem textAfter_eq (edits : List Edit) (path : Text) :
    textAfter quoted contents edits path =
      ((Applying.after quoted contents edits).current contents path).original.map fun _ =>
        ((Applying.after quoted contents edits).current contents path).content := by
  have hkept := Applying.kept_after quoted contents edits
  have hresult : (applyEdits quoted edits contents).newContents =
    (Applying.after quoted contents edits).files.filterMap FileState.changed := rfl
  rw [textAfter, hresult, lookup_changed hkept.nodup, Applying.current]
  cases hfound : (Applying.after quoted contents edits).files.find? fun file => file.path = path with
  | none => cases contents path <;> simp [FileState.new]
  | some file =>
    have horiginal := hkept.original file (List.mem_of_find?_eq_some hfound)
    have hname : file.path = path := by simpa using List.find?_some hfound
    rw [hname] at horiginal
    cases hpath : contents path with
    | none => simp [FileState.changed, horiginal, hpath]
    | some original =>
      by_cases hsame : original = file.content <;>
        simp [FileState.changed, horiginal, hpath, hsame]

/-! ## The edits of a diff -/

theorem placed_refused {edit : Edit} {content reason : Text} {status : EditStatus} {found : Nat}
    (h : placed quoted edit content = .refused status reason found) : status ≠ .applied := by
  unfold placed at h
  split at h
  · obtain ⟨rfl, -⟩ := Placed.refused.inj h
    decide
  · split at h
    · obtain ⟨rfl, -⟩ := Placed.refused.inj h
      decide
    · dsimp only at h
      split at h
      · obtain ⟨rfl, -⟩ := Placed.refused.inj h
        decide
      · simp at h
      · obtain ⟨rfl, -⟩ := Placed.refused.inj h
        decide

/-- An edit applies when it is placed in a file that exists. -/
theorem apply_applied {file : FileState} {edit : Edit}
    (h : (file.apply quoted edit).1.status = .applied) :
    ∃ original reason new, file.original = some original ∧
      placed quoted edit file.content = .changed reason new ∧
      file.edited quoted edit = { file with content := new } := by
  unfold FileState.edited
  unfold FileState.apply at h ⊢
  cases horiginal : file.original with
  | none => simp [horiginal] at h
  | some original =>
    cases hplaced : placed quoted edit file.content with
    | changed reason new => exact ⟨original, reason, new, rfl, rfl, by simp [FileState.write, horiginal]⟩
    | refused status reason found =>
      simp only [horiginal, hplaced] at h
      exact absurd h (placed_refused quoted hplaced)

/-- Every edit of a diff that applies makes the change of its hunk, in the text that the edits
before it left, exactly when the hunk is plain there. -/
theorem applyEdits_changes_iff (text : Text) {index : Nat} {hunk : Hunk} {outcome : EditOutcome}
    (hhunk : (diffHunks quoted text).hunks[index]? = some hunk)
    (houtcome : (applyEdits quoted (parseUnifiedDiff quoted text).result.edits
      contents).outcomes[index]? = some outcome)
    (happlied : outcome.status = .applied) :
    ∃ old new,
      textAfter quoted contents ((parseUnifiedDiff quoted text).result.edits.take index)
        hunk.path = some old ∧
      textAfter quoted contents ((parseUnifiedDiff quoted text).result.edits.take (index + 1))
        hunk.path = some new ∧
      (hunk.Changes old new ↔ hunk.Plain old) := by
  have hsound := diffHunks_sound quoted text hunk (List.mem_of_getElem? hhunk)
  set edits := (parseUnifiedDiff quoted text).result.edits with hedits
  have hedit : edits[index]? = some hunk.edit := by
    rw [hedits]
    simp [parseUnifiedDiff, hhunk]
  set before := Applying.after quoted contents (edits.take index) with hbefore
  have hfound : outcome = ((before.current contents hunk.path).apply quoted hunk.edit).1 :=
    Option.some.inj (houtcome.symm.trans (Applying.getElem?_outcomes quoted contents hedit))
  rw [hfound] at happlied
  obtain ⟨original, reason, new, horiginal, hplaced, hedited⟩ := apply_applied quoted happlied
  refine ⟨(before.current contents hunk.path).content, new, ?_, ?_, ?_⟩
  · rw [textAfter_eq, ← hbefore, horiginal]
    rfl
  · have hnext : (Applying.after quoted contents (edits.take (index + 1))).current contents
        hunk.path = (before.current contents hunk.path).edited quoted hunk.edit := by
      rw [List.take_add_one, hedit, Option.toList_some, Applying.after_concat,
        Applying.current_step]
      exact if_pos rfl
    rw [textAfter_eq, hnext, hedited]
    simp [horiginal]
  · exact Hunk.changes_iff hsound hplaced

end Run

/-- The one file `f` with this text. -/
def oneFile (text : Text) (path : Text) : Option Text := if path = ['f'] then some text else none

theorem applyEdits_changes_iff_one_line :
    ∃ old new, textAfter inQuotes (oneFile "x\ny".toList)
        ((parseUnifiedDiff inQuotes (oneHunk "@@ -2 +2 @@\n-y\n+z\n")).result.edits.take 0)
        "f".toList = some old ∧
      textAfter inQuotes (oneFile "x\ny".toList)
        ((parseUnifiedDiff inQuotes (oneHunk "@@ -2 +2 @@\n-y\n+z\n")).result.edits.take 1)
        "f".toList = some new ∧
      (Hunk.Changes ⟨0, "f".toList, ["y".toList], ["z".toList], false⟩ old new ↔
        Hunk.Plain ⟨0, "f".toList, ["y".toList], ["z".toList], false⟩ old) :=
  @applyEdits_changes_iff inQuotes (oneFile "x\ny".toList)
    (oneHunk "@@ -2 +2 @@\n-y\n+z\n") 0 ⟨0, "f".toList, ["y".toList], ["z".toList], false⟩
    ⟨⟨0, "f".toList, "y".toList, "z".toList⟩, .applied, [], 1⟩ (by decide +kernel)
    (by decide +kernel) rfl

/-- A hunk that only removes a line leaves a blank line in its place. -/
theorem applyEdits_removal_leaves_blank :
    ∃ hunk outcome,
      (diffHunks inQuotes (oneHunk "@@ -2 +1,0 @@\n-b\n")).hunks[0]? = some hunk ∧
      (applyEdits inQuotes
        (parseUnifiedDiff inQuotes (oneHunk "@@ -2 +1,0 @@\n-b\n")).result.edits
        (oneFile "a\nb\nc".toList)).outcomes[0]? = some outcome ∧
      outcome.status = .applied ∧
      textAfter inQuotes (oneFile "a\nb\nc".toList)
        ((parseUnifiedDiff inQuotes (oneHunk "@@ -2 +1,0 @@\n-b\n")).result.edits.take 0)
        hunk.path = some "a\nb\nc".toList ∧
      textAfter inQuotes (oneFile "a\nb\nc".toList)
        ((parseUnifiedDiff inQuotes (oneHunk "@@ -2 +1,0 @@\n-b\n")).result.edits.take 1)
        hunk.path = some "a\n\nc".toList ∧
      ¬ hunk.Changes "a\nb\nc".toList "a\n\nc".toList := by
  refine ⟨⟨0, "f".toList, ["b".toList], [], false⟩,
    ⟨⟨0, "f".toList, "b".toList, []⟩, .applied, [], 1⟩, by decide +kernel, by decide +kernel, rfl,
    by decide +kernel, by decide +kernel, ?_⟩
  rintro ⟨before, after, hchanges⟩
  have hne : before ++ [] ++ after ≠ [] := by
    intro hnil
    obtain ⟨rfl, rfl⟩ : before = [] ∧ after = [] := by simpa using hnil
    exact absurd hchanges.split (by decide)
  exact absurd (hchanges.length_new (by simp [Unbroken]) hne) (by decide)

end Agentless.Patch
