import Agentless.Patch.Reading

/-!
# The hunks of a diff read back as its groups

1. The body of a group has the group's lines of `a` as its pre-image and its lines of `b` as its
   post-image.
2. The groups of a diff are hunks that follow each other.
3. So the reader of the rendered diff takes one edit from each group.
-/

namespace Agentless.Patch

open Text Text.Diff

/-- The lines of one side that the opcodes of a group cover, from `start` to `stop` of each. -/
def covered (side : List Text) (start stop : Opcode → Nat) (group : List Opcode) : List Text :=
  group.flatMap fun code => slice side (start code) (stop code)

def groupSource (a : List Text) (group : List Opcode) : List Text :=
  covered a Opcode.aStart Opcode.aEnd group

def groupResult (b : List Text) (group : List Opcode) : List Text :=
  covered b Opcode.bStart Opcode.bEnd group

section Groups

variable {a b : List Text}

/-! ## Bodies of groups -/

theorem preImage_marked {mark : Char} (lines : List Text) :
    preImage (Diff.marked mark lines) = if mark = ' ' ∨ mark = '-' then lines else [] := by
  unfold preImage Diff.marked
  rw [List.filterMap_map]
  split <;> simp [Function.comp_def, preLine, *]

theorem postImage_marked {mark : Char} (lines : List Text) :
    postImage (Diff.marked mark lines) = if mark = ' ' ∨ mark = '+' then lines else [] := by
  unfold postImage Diff.marked
  rw [List.filterMap_map]
  split <;> simp [Function.comp_def, postLine, *]

theorem preImage_lines (code : Opcode) :
    preImage (code.lines a b) = slice a code.aStart code.aEnd := by
  unfold Opcode.lines
  split <;> simp [preImage_marked]

theorem postImage_lines {code : Opcode} (h : code.Fits a b) :
    postImage (code.lines a b) = slice b code.bStart code.bEnd := by
  unfold Opcode.lines
  split
  · rename_i htag
    rw [postImage_marked, ((Opcode.fits_equal_iff htag).mp h).2.slice_eq]
    simp
  · simp [postImage_marked]

def groupBody (a b : List Text) (group : List Opcode) : List Text :=
  group.flatMap fun code => code.lines a b

theorem preImage_groupBody (group : List Opcode) :
    preImage (groupBody a b group) = groupSource a group := by
  induction group with
  | nil => rfl
  | cons code group ih =>
    simp only [groupBody, groupSource, covered, List.flatMap_cons, preImage_append,
      preImage_lines] at ih ⊢
    rw [ih]

theorem postImage_groupBody {group : List Opcode} (h : ∀ code ∈ group, code.Fits a b) :
    postImage (groupBody a b group) = groupResult b group := by
  induction group with
  | nil => rfl
  | cons code group ih =>
    obtain ⟨hcode, hgroup⟩ := List.forall_mem_cons.mp h
    have := ih hgroup
    simp only [groupBody, groupResult, covered, List.flatMap_cons, postImage_append,
      postImage_lines hcode] at this ⊢
    rw [this]

theorem Chain.groupSource_eq {i j i' j' : Nat} {group : List Opcode}
    (h : Chain a b i j group i' j') : groupSource a group = slice a i i' := by
  induction group generalizing i j with
  | nil =>
    obtain ⟨rfl, rfl⟩ := h
    simp [groupSource, covered]
  | cons code group ih =>
    obtain ⟨rfl, rfl, hfits, hrest⟩ := h
    have hrestEq := ih hrest
    simp only [groupSource, covered, List.flatMap_cons] at hrestEq ⊢
    rw [hrestEq, slice_append hfits.bounds.1 hrest.bounds.1]

theorem Chain.groupResult_eq {i j i' j' : Nat} {group : List Opcode}
    (h : Chain a b i j group i' j') : groupResult b group = slice b j j' := by
  induction group generalizing i j with
  | nil =>
    obtain ⟨rfl, rfl⟩ := h
    simp [groupResult, covered]
  | cons code group ih =>
    obtain ⟨rfl, rfl, hfits, hrest⟩ := h
    have hrestEq := ih hrest
    simp only [groupResult, covered, List.flatMap_cons] at hrestEq ⊢
    rw [hrestEq, slice_append hfits.bounds.2.1 hrest.bounds.2]

theorem isMarked_of_mem_groupBody {group : List Opcode} {line : Text}
    (h : line ∈ groupBody a b group) : IsMarked line := by
  simp only [groupBody, Opcode.lines, Diff.marked, List.mem_flatMap] at h
  obtain ⟨code, -, hline⟩ := h
  split at hline
  · obtain ⟨content, -, rfl⟩ := List.mem_map.mp hline
    exact ⟨' ', content, rfl, by simp⟩
  · rcases List.mem_append.mp hline with hline | hline <;>
      obtain ⟨content, -, rfl⟩ := List.mem_map.mp hline
    · exact ⟨'-', content, rfl, by simp⟩
    · exact ⟨'+', content, rfl, by simp⟩

theorem unbroken_groupBody (ha : Unbroken a) (hb : Unbroken b) (group : List Opcode) :
    Unbroken (groupBody a b group) := by
  have hmarked {mark : Char} (hmark : mark ≠ '\n') {side : List Text} (hside : Unbroken side)
      {start stop : Nat} : Unbroken (Diff.marked mark (slice side start stop)) := by
    intro line hline
    obtain ⟨content, hcontent, rfl⟩ := List.mem_map.mp hline
    simpa [hmark.symm] using hside content (mem_of_mem_slice hcontent)
  intro line hline
  simp only [groupBody, Opcode.lines, List.mem_flatMap] at hline
  obtain ⟨code, -, hline⟩ := hline
  split at hline
  · exact hmarked (by decide) ha line hline
  · rcases List.mem_append.mp hline with hline | hline
    · exact hmarked (by decide) ha line hline
    · exact hmarked (by decide) hb line hline

theorem Chain.bounds_length {i j i' j' : Nat} {group : List Opcode}
    (h : Chain a b i j group i' j') (hi : i ≤ a.length) (hj : j ≤ b.length) :
    i' ≤ a.length ∧ j' ≤ b.length := by
  induction group generalizing i j with
  | nil => obtain ⟨rfl, rfl⟩ := h; exact ⟨hi, hj⟩
  | cons code group ih =>
    obtain ⟨-, -, hfits, hrest⟩ := h
    obtain ⟨-, -, ha, hb⟩ := hfits.bounds
    exact ih hrest ha hb

/-! ## Groups as hunks -/

/-- The hunk that a group is written as. -/
def groupWritten {i j i' j' : Nat} {group : List Opcode} (h : Chain a b i j group i' j')
    (hi : i' ≤ a.length) (hj : j' ≤ b.length) (ha : a.length < 2 ^ 64) (hb : b.length < 2 ^ 64) :
    Written where
  aStart := i
  aEnd := i'
  bStart := j
  bEnd := j'
  body := groupBody a b group
  marked _ := isMarked_of_mem_groupBody
  pre := by rw [preImage_groupBody, Chain.groupSource_eq h, length_slice hi]
  post := by rw [postImage_groupBody h.fits, Chain.groupResult_eq h, length_slice hj]
  aLimit := by omega
  bLimit := by omega

theorem Grouped.written {newFile : Bool} {groups : List (List Opcode)} {i j floor : Nat}
    (h : Grouped a b i j groups) (ha : a.length < 2 ^ 64) (hb : b.length < 2 ^ 64)
    (hlines : (∀ group ∈ groups, ∃ code ∈ group, code.aStart < code.aEnd) ∧ floor ≤ i + 1 ∨
      newFile = true ∧ a = [] ∧ floor = 0) :
    ∃ hunks : List Written, rendered hunks = groups.flatMap (fun group => Diff.hunk group a b) ∧
      hunks.map Written.body = groups.map (groupBody a b) ∧ Follows newFile floor hunks := by
  induction groups generalizing i j floor with
  | nil => exact ⟨[], rfl, rfl, trivial⟩
  | cons group groups ih =>
    obtain ⟨hne, m, n, m', n', hgap, hchain, hrest⟩ := h
    have hmove := hchain.progress hne
    have hle := hgap.aLe
    obtain ⟨hi, hj⟩ := Chain.bounds_length hchain hgap.aHigh hgap.bHigh
    let written := groupWritten hchain hi hj ha hb
    have hfloor : written.floor = rangeStart m m' + (m' - m) := rfl
    obtain ⟨hline, hstart, hnext⟩ : (m < m' ∨ newFile = true ∧ n < n') ∧ floor ≤ rangeStart m m' ∧
        ((∀ group ∈ groups, ∃ code ∈ group, code.aStart < code.aEnd) ∧
            written.floor ≤ m' + 1 ∨ newFile = true ∧ a = [] ∧ written.floor = 0) := by
      rw [hfloor]
      unfold rangeStart
      rcases hlines with ⟨hall, hle'⟩ | ⟨hnew, hempty, hzero⟩
      · have hlt := hchain.lt_of_line (hall group List.mem_cons_self)
        refine ⟨.inl hlt, ?_, .inl ⟨fun other hother => hall other (by simp [hother]), ?_⟩⟩
        · split <;> omega
        · split <;> omega
      · have hlength : a.length = 0 := by simp [hempty]
        have hgapHigh := hgap.aHigh
        refine ⟨.inr ⟨hnew, by omega⟩, by omega, .inr ⟨hnew, hempty, ?_⟩⟩
        split <;> omega
    obtain ⟨hunks, hrendered, hbodies, hfollows⟩ := ih hrest hnext
    refine ⟨written :: hunks, ?_, ?_, hline, hstart, hfollows⟩
    · rw [List.flatMap_cons, hunk_eq hchain hne, ← hrendered]
      rfl
    · rw [List.map_cons, hbodies]
      rfl

theorem groups_written (a b : List Text) (ha : a.length < 2 ^ 64) (hb : b.length < 2 ^ 64) :
    ∃ hunks : List Written,
      rendered hunks = (groupedOpcodes a b context).flatMap (fun group => Diff.hunk group a b) ∧
      hunks.map Written.body = (groupedOpcodes a b context).map (groupBody a b) ∧
      Follows a.isEmpty 0 hunks := by
  refine Grouped.written (groupedOpcodes_grouped a b (by decide)) ha hb ?_
  cases a with
  | nil => exact .inr ⟨rfl, rfl, rfl⟩
  | cons line a => exact .inl ⟨groupedOpcodes_lines (by simp) b (by decide), by omega⟩

theorem groupedOpcodes_ne_nil (h : a ≠ b) : groupedOpcodes a b context ≠ [] := by
  intro hnil
  have hgrouped : Grouped a b 0 0 (groupedOpcodes a b context) :=
    groupedOpcodes_grouped a b (by decide)
  rw [hnil] at hgrouped
  have hequal : Equal a b 0 0 a.length b.length := hgrouped
  exact h (by simpa using hequal.slice_eq)

theorem drop_unifiedDiff (a b : List Text) : (unifiedDiff a b).drop 2 =
    (groupedOpcodes a b context).flatMap fun group => Diff.hunk group a b := by
  unfold unifiedDiff
  dsimp only
  split
  · rename_i hempty
    simp [List.isEmpty_iff.mp hempty]
  · rfl

/-- Every opcode of a group fits the lines it names. -/
theorem Grouped.fits {groups : List (List Opcode)} {i j : Nat} (h : Grouped a b i j groups) :
    ∀ group ∈ groups, ∀ code ∈ group, code.Fits a b := by
  induction groups generalizing i j with
  | nil => simp
  | cons group groups ih =>
    obtain ⟨-, m, n, m', n', -, hchain, hrest⟩ := h
    exact List.forall_mem_cons.mpr ⟨hchain.fits, ih hrest⟩

end Groups

/-! ## The edits of a rendered diff -/

/-- The edit that one group stands for. -/
def groupEdit (path : Text) (a b : List Text) (group : List Opcode) (index : Nat) : Edit :=
  ⟨index, path, joinLines (groupSource a group), joinLines (groupResult b group)⟩

/-- The file headers of `path` and the hunks of the diff from `a` to `b`. -/
def diffText (path : HeaderPath) (a b : List Text) : Text :=
  joinLines (path.fileHeaders a.isEmpty ++ (unifiedDiff a b).drop 2)

/-- The edit that the reader makes of a body. -/
def bodyEdit (path : Text) (index : Nat) (body : List Text) : Edit :=
  ⟨index, path, joinLines (preImage body), joinLines (postImage body)⟩

theorem map_edit_readAll (path : Text) (newFile : Bool) (hunks : List Written) :
    (readAll path newFile 0 hunks).map Hunk.edit =
      (hunks.map Written.body).mapIdx (bodyEdit path) := by
  apply List.ext_getElem?
  intro index
  simp only [readAll, List.getElem?_map, List.getElem?_mapIdx, List.getElem?_zipIdx,
    Option.map_map]
  cases hunks[index]? with
  | none => rfl
  | some written => simp [bodyEdit, Hunk.edit, Written.read]

theorem bodyEdit_groupBody {a b : List Text} {group : List Opcode}
    (h : ∀ code ∈ group, code.Fits a b) (path : Text) (index : Nat) :
    bodyEdit path index (groupBody a b group) = groupEdit path a b group index := by
  rw [bodyEdit, preImage_groupBody, postImage_groupBody h]
  rfl

theorem parseUnifiedDiff_diffText (quoted : Text → Text) (path : HeaderPath) {a b : List Text}
    (hne : a ≠ b) (ha : Unbroken a) (hb : Unbroken b) (haLength : a.length < 2 ^ 64)
    (hbLength : b.length < 2 ^ 64) {ending : Text} (hending : ending = [] ∨ ending = ['\n']) :
    parseUnifiedDiff quoted (diffText path a b ++ ending) =
      ⟨⟨(groupedOpcodes a b context).mapIdx fun index group =>
        groupEdit path.name a b group index, []⟩, []⟩ := by
  obtain ⟨hunks, hrendered, hbodies, hfollows⟩ := groups_written a b haLength hbLength
  have hhunks : hunks ≠ [] := by
    rintro rfl
    exact groupedOpcodes_ne_nil hne (by simpa using hbodies.symm)
  have htext : diffText path a b = joinLines (path.diff a.isEmpty hunks) := by
    rw [diffText, drop_unifiedDiff, ← hrendered]
    rfl
  have hunbroken : ∀ written ∈ hunks, Unbroken written.body := by
    intro written hwritten
    have hmem := List.mem_map_of_mem (f := Written.body) hwritten
    rw [hbodies] at hmem
    obtain ⟨group, -, hbody⟩ := List.mem_map.mp hmem
    rw [← hbody]
    exact unbroken_groupBody ha hb group
  have hedits : (readAll path.name a.isEmpty 0 hunks).map Hunk.edit =
      (groupedOpcodes a b context).mapIdx fun index group =>
        groupEdit path.name a b group index := by
    rw [map_edit_readAll, hbodies]
    apply List.ext_getElem?
    intro index
    simp only [List.getElem?_mapIdx, List.getElem?_map, Option.map_map]
    refine Option.map_congr fun group hgroup => ?_
    have hfits := Grouped.fits (groupedOpcodes_grouped a b (by decide)) group
      (List.mem_of_getElem? hgroup)
    exact bodyEdit_groupBody hfits path.name index
  unfold parseUnifiedDiff
  rw [htext, path.diffHunks_diff quoted hhunks hfollows hunbroken hending]
  simp only [hedits]

/-- The path of one file `f`. -/
def plainPath : HeaderPath := ⟨['f'], by decide, by decide, by decide⟩

theorem parseUnifiedDiff_diffText_one_line :
    parseUnifiedDiff (fun text => '\'' :: text ++ ['\''])
      (diffText plainPath ["x".toList, "y".toList] ["x".toList, "z".toList] ++ ['\n']) =
      ⟨⟨[⟨0, "f".toList, "x\ny".toList, "x\nz".toList⟩], []⟩, []⟩ :=
  (parseUnifiedDiff_diffText _ plainPath (by decide) (by simp [Unbroken]) (by simp [Unbroken])
    (by simp) (by simp) (.inr rfl)).trans (by decide +kernel)

/-! ## A diff determines its result

Given the lines before it, a unified diff has one result: its headers tell where each group
starts and ends in `a`, its bodies what each group becomes, and the lines around the groups are
those of `a`. -/

theorem range_eq {start stop start' stop' : Nat} (hle : start ≤ stop) (hle' : start' ≤ stop')
    (hstart : rangeStart start stop = rangeStart start' stop')
    (hcount : stop - start = stop' - start') : start = start' ∧ stop = stop' := by
  unfold rangeStart at hstart
  split at hstart <;> split at hstart <;> omega

/-- The header of a group tells its lines of `a`. -/
theorem hunkHeader_inj {m m' n n' p p' q q' : Nat} (hle : m ≤ m') (hle' : p ≤ p')
    (h : hunkHeader m m' n n' = hunkHeader p p' q q') : m = p ∧ m' = p' := by
  have hread := congrArg parseHeader h
  rw [parseHeader_hunkHeader, parseHeader_hunkHeader, Option.some.injEq, Counts.mk.injEq] at hread
  exact range_eq hle hle' hread.1 hread.2.1

section Groups

variable {a b b' : List Text}

theorem opensHunk_groupBody {group : List Opcode} :
    ∀ line ∈ groupBody a b group, opensHunk line = false := by
  intro line hline
  obtain ⟨marker, content, rfl, rfl | rfl | rfl⟩ := isMarked_of_mem_groupBody hline <;> rfl

theorem opensHunk_groups {i j : Nat} {groups : List (List Opcode)} (h : Grouped a b i j groups) :
    ((groups.flatMap fun group => Diff.hunk group a b).head?.all opensHunk) = true := by
  cases groups with
  | nil => rfl
  | cons group groups =>
    obtain ⟨hne, m, n, m', n', -, hchain, -⟩ := h
    rw [List.flatMap_cons, hunk_eq hchain hne]
    rfl

theorem drop_eq_of_chain {i j m n m' n' : Nat} {group : List Opcode} (hgap : Equal a b i j m n)
    (hchain : Chain a b m n group m' n') :
    b.drop j = slice a i m ++ postImage (groupBody a b group) ++ b.drop n' := by
  have hn : j ≤ n := by
    have := hgap.aLe
    have := hgap.length
    omega
  rw [hgap.slice_eq, postImage_groupBody hchain.fits, Chain.groupResult_eq hchain,
    List.append_assoc, slice_append_drop hchain.bounds.2, slice_append_drop hn]

theorem Grouped.drop_eq {i j j' : Nat} {groups groups' : List (List Opcode)}
    (h : Grouped a b i j groups) (h' : Grouped a b' i j' groups')
    (heq : groups.flatMap (fun group => Diff.hunk group a b) =
      groups'.flatMap fun group => Diff.hunk group a b') :
    b.drop j = b'.drop j' := by
  induction groups generalizing i j j' groups' with
  | nil =>
    cases groups' with
    | nil =>
      have hsame : slice b j b.length = slice b' j' b'.length :=
        (Equal.slice_eq h).symm.trans (Equal.slice_eq h')
      simpa using hsame
    | cons group' groups' =>
      obtain ⟨hne, m, n, m', n', -, hchain, -⟩ := h'
      simp [hunk_eq hchain hne] at heq
  | cons group groups ih =>
    obtain ⟨hne, m, n, m', n', hgap, hchain, hrest⟩ := h
    cases groups' with
    | nil => simp [hunk_eq hchain hne] at heq
    | cons group' groups' =>
      obtain ⟨hne', p, q, p', q', hgap', hchain', hrest'⟩ := h'
      rw [List.flatMap_cons, List.flatMap_cons, hunk_eq hchain hne, hunk_eq hchain' hne',
        List.cons_append, List.cons_append, List.cons.injEq] at heq
      obtain ⟨hheader, hlines⟩ := heq
      obtain ⟨rfl, rfl⟩ := hunkHeader_inj hchain.bounds.1 hchain'.bounds.1 hheader
      obtain ⟨hbody, htail⟩ := Sequence.append_inj_of_head opensHunk_groupBody opensHunk_groupBody
        (opensHunk_groups hrest) (opensHunk_groups hrest') hlines
      rw [drop_eq_of_chain hgap hchain, drop_eq_of_chain hgap' hchain', ih hrest hrest' htail]
      congr 3

/-- The unified diff from `a` tells any two results apart. -/
theorem unifiedDiff_injective (a : List Text) : Function.Injective (unifiedDiff a) := by
  intro b b' heq
  have hhunks := congrArg (List.drop 2) heq
  rw [drop_unifiedDiff, drop_unifiedDiff] at hhunks
  have hgrouped : Grouped a b 0 0 (groupedOpcodes a b context) :=
    groupedOpcodes_grouped a b (by decide)
  have hgrouped' : Grouped a b' 0 0 (groupedOpcodes a b' context) :=
    groupedOpcodes_grouped a b' (by decide)
  simpa using Grouped.drop_eq hgrouped hgrouped' hhunks

end Groups

end Agentless.Patch
