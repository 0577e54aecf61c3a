import Agentless.Patch.RoundTrip
import Agentless.Patch.Unidiff

/-!
# What holds of every hunk that is read

A body takes lines of the diff, one side never past its count, and ends when both counts are
reached. So the sides of a hunk have the declared lengths, and their lines no line break.
-/

namespace Agentless.Patch

open Text

/-- The lines taken so far are within the counts, unless no machine word holds the count, and
are single lines. -/
structure Tally.Within (tally : Tally) : Prop where
  old : tally.oldCount < 2 ^ 64 → tally.old.length ≤ tally.oldCount
  new : tally.newCount < 2 ^ 64 → tally.new.length ≤ tally.newCount
  oldLines : Unbroken tally.old
  newLines : Unbroken tally.new

theorem unbroken_concat {lines : List Text} {line : Text} (h : Unbroken lines)
    (hline : '\n' ∉ line) : Unbroken (lines ++ [line]) :=
  unbroken_append.mpr ⟨h, by simpa [Unbroken] using hline⟩

theorem lt_of_leftOf {count used : Nat} (hleft : Tally.leftOf count used) (hcount : count < 2 ^ 64) :
    used < count := by
  rw [Tally.leftOf, toUsize, if_pos hcount] at hleft
  simpa using hleft

/-- A side with no line left has a count that a machine word holds. -/
theorem count_of_leftOf {count used : Nat} (h : count < 2 ^ 64 → used ≤ count)
    (hleft : Tally.leftOf count used = false) : used = count ∧ count < 2 ^ 64 := by
  unfold Tally.leftOf toUsize at hleft
  split at hleft
  · rename_i hcount
    have := h hcount
    simp at hleft
    omega
  · simp at hleft

theorem Tally.Within.take {tally : Tally} (h : tally.Within) {marker : Char} {content : Text}
    (hfits : tally.fits marker = some true) (hcontent : '\n' ∉ content) :
    (tally.take marker content).Within := by
  obtain ⟨hold, hnew, holdLines, hnewLines⟩ := h
  unfold Tally.fits Tally.leftOld Tally.leftNew at hfits
  unfold Tally.take
  split at hfits
  · rename_i hmarker
    simp only [Option.some.injEq, Bool.and_eq_true] at hfits
    rw [if_pos hmarker]
    refine ⟨?_, ?_, unbroken_concat holdLines hcontent, unbroken_concat hnewLines hcontent⟩
    · simpa using lt_of_leftOf hfits.1
    · simpa using lt_of_leftOf hfits.2
  · rename_i hmarker
    rw [if_neg hmarker]
    split at hfits
    · rename_i hminus
      rw [if_pos hminus]
      refine ⟨?_, hnew, unbroken_concat holdLines hcontent, hnewLines⟩
      simpa using lt_of_leftOf (Option.some.inj hfits)
    · rename_i hminus
      rw [if_neg hminus]
      split at hfits
      · refine ⟨hold, ?_, holdLines, unbroken_concat hnewLines hcontent⟩
        simpa using lt_of_leftOf (Option.some.inj hfits)
      · simp at hfits

@[simp] theorem Tally.take_counts (tally : Tally) (marker : Char) (content : Text) :
    (tally.take marker content).oldCount = tally.oldCount ∧
      (tally.take marker content).newCount = tally.newCount := by
  unfold Tally.take
  split
  · exact ⟨rfl, rfl⟩
  · split <;> exact ⟨rfl, rfl⟩

theorem marked_content {line : Text} (h : '\n' ∉ line) : '\n' ∉ (marked line).2 := by
  cases line with
  | nil => exact h
  | cons marker content => exact fun hmem => h (List.mem_cons_of_mem _ hmem)

section Read

variable {quoted : Text → Text}

/-- A body that is read ends with both counts reached. -/
theorem bodyFrom_within {path header : Text} {rest : List Text} (hrest : Unbroken rest)
    {next next' : Nat} {tally tally' : Tally} (h : tally.Within)
    (hread : bodyFrom quoted path header rest next tally = .ok (tally', next')) :
    tally'.Within ∧ tally'.opened = false ∧ tally'.oldCount = tally.oldCount ∧
      tally'.newCount = tally.newCount := by
  fun_induction bodyFrom quoted path header rest next tally with
  | case1 => simp at hread
  | case2 next tally hopen line rest hmarker ih =>
    exact ih (List.forall_mem_cons.mp hrest).2 h hread
  | case3 next tally hopen line rest hmarker hfits ih =>
    obtain ⟨hline, hrest⟩ := List.forall_mem_cons.mp hrest
    simpa using ih hrest (h.take hfits (marked_content hline)) hread
  | case4 => simp at hread
  | case5 => simp at hread
  | case6 rest next tally hclosed =>
    obtain ⟨rfl, rfl⟩ : tally = tally' ∧ next = next' := by simpa using hread
    exact ⟨h, by simpa using hclosed, rfl, rfl⟩

/-- The sides of a body have the declared counts of lines. -/
structure Body.Declared (counts : Counts) (body : Body) : Prop where
  search : body.search.length = counts.oldCount
  replace : body.replace.length = counts.newCount
  oldLimit : counts.oldCount < 2 ^ 64
  newLimit : counts.newCount < 2 ^ 64
  searchLines : Unbroken body.search
  replaceLines : Unbroken body.replace

theorem hunkBody_declared {lines : List Text} (hlines : Unbroken lines) {at_ : Nat}
    {counts : Counts} {path header : Text} {body : Body}
    (h : hunkBody quoted lines at_ counts path header = .ok body) : body.Declared counts := by
  unfold hunkBody at h
  split at h
  · simp at h
  · rename_i tally next hread
    simp only [Except.ok.injEq] at h
    subst h
    have hempty : (⟨counts.oldCount, counts.newCount, [], []⟩ : Tally).Within :=
      ⟨fun _ => Nat.zero_le _, fun _ => Nat.zero_le _, by simp [Unbroken], by simp [Unbroken]⟩
    have hrest : Unbroken (lines.drop at_) := fun line hline =>
      hlines line (List.mem_of_mem_drop hline)
    obtain ⟨hwithin, hclosed, hold, hnew⟩ := bodyFrom_within hrest hempty hread
    simp only [Tally.opened, Tally.leftOld, Tally.leftNew, Bool.or_eq_false_iff] at hclosed
    have holdCount := count_of_leftOf hwithin.old hclosed.1
    have hnewCount := count_of_leftOf hwithin.new hclosed.2
    dsimp only at hold hnew
    exact ⟨by dsimp only; omega, by dsimp only; omega, by omega, by omega, hwithin.oldLines,
      hwithin.newLines⟩

/-- What the reader ensures of a hunk. -/
structure Hunk.Sound (hunk : Hunk) : Prop where
  anchored : hunk.newFile = false → hunk.pre ≠ []
  preLimit : hunk.pre.length < 2 ^ 64
  postLimit : hunk.post.length < 2 ^ 64
  preLines : Unbroken hunk.pre
  postLines : Unbroken hunk.post

theorem hunkCounts_anchored {header : Text} {target : Target} {floor : Nat} {counts : Counts}
    (h : hunkCounts quoted header target floor = .ok counts) :
    target.newFile = false → counts.oldCount ≠ 0 := by
  unfold hunkCounts at h
  split at h
  · cases h
  · split at h
    · cases h
    · dsimp only at h
      split at h
      · cases h
      · split at h
        · cases h
        · rename_i hanchor
          split at h
          · cases h
          · obtain rfl := Except.ok.inj h
            tauto

theorem hunk_sound {lines : List Text} (hlines : Unbroken lines) {at_ : Nat} {header : Text}
    {target : Target} {index floor : Nat} {found : Hunk × Nat × Nat}
    (h : hunk quoted lines at_ header target index floor = .ok found) : found.1.Sound := by
  unfold hunk at h
  dsimp only at h
  split at h
  · simp at h
  · rename_i counts hcounts
    split at h
    · simp at h
    · rename_i body hbody
      split at h
      · simp at h
      · obtain rfl := Except.ok.inj h
        have hdeclared := hunkBody_declared hlines hbody
        obtain ⟨hsearch, hreplace, hold, hnew, hsearchLines, hreplaceLines⟩ := hdeclared
        refine ⟨fun hfile hempty => hunkCounts_anchored hcounts hfile ?_, by dsimp only; omega,
          by dsimp only; omega, hsearchLines, hreplaceLines⟩
        simpa [← hsearch] using hempty

/-! ## From one hunk to the whole diff -/

variable {lines : List Text} {holds : Hunk → Prop}

/-- A property of every hunk that is read from these lines. -/
def EveryHunk (quoted : Text → Text) (lines : List Text) (holds : Hunk → Prop) : Prop :=
  ∀ {at_ header target index floor found},
    hunk quoted lines at_ header target index floor = .ok found → holds found.1

theorem endHunks_every {target : Target} {resume next index : Nat} {header : Text}
    {read : List Hunk} (hread : ∀ hunk ∈ read, holds hunk) :
    ∀ hunk ∈ (endHunks lines target resume next index header read).hunks, holds hunk := by
  unfold endHunks
  split <;> exact hread

theorem hunksFrom_every (h : EveryHunk quoted lines holds) {target : Target}
    {resume next index floor : Nat} {header : Text} {read : List Hunk}
    (hread : ∀ hunk ∈ read, holds hunk) :
    ∀ hunk ∈ (hunksFrom quoted lines target resume next index floor header read).hunks,
      holds hunk := by
  fun_induction hunksFrom quoted lines target resume next index floor header read with
  | case1 next index floor header read hline => exact endHunks_every hread
  | case2 next index floor header read line hline hopens refusal hrefusal => exact hread
  | case3 next index floor header read line hline hopens found after raised hhunk ih =>
    exact ih (List.forall_mem_append.mpr ⟨hread, by simpa using h hhunk⟩)
  | case4 next index floor header read line hline hopens => exact endHunks_every hread

theorem fileSection_cases (holds : Section → Prop) {ordinal : Nat}
    (herror : ∀ path resume reason, holds (sectionError path ordinal resume reason))
    (hnote : ∀ path resume reason, holds (sectionNote path ordinal resume reason))
    (hhunks : ∀ {at_ header}, lines[at_]? = some header → ∀ target resume,
      holds (hunksFrom quoted lines target resume at_ ordinal 0 header []))
    (at_ : Nat) (line : Text) : holds (fileSection quoted lines at_ line ordinal) := by
  have hread (at_ : Nat) (target : Target) (resume : Nat) :
      holds (hunks quoted lines at_ target ordinal resume) := by
    unfold hunks
    split
    · rename_i header hheader
      split
      · exact hhunks hheader target resume
      · exact herror _ _ _
    · exact herror _ _ _
  have hpaths (oldRaw newRaw : Text) (at_ : Nat) (label : Option Text) (resume : Nat) :
      holds (pathsThenHunks quoted lines oldRaw newRaw at_ label ordinal resume) := by
    unfold pathsThenHunks
    dsimp only
    split
    · exact herror _ _ _
    · split
      · split
        · exact herror _ _ _
        · exact hread _ _ _
      · exact hread _ _ _
      · exact hread _ _ _
      · exact herror _ _ _
  have hwithout (read : Headers) (label : Option Text) (resume : Nat) :
      holds (withoutPair lines read label ordinal resume) := by
    unfold withoutPair
    split
    · exact herror _ _ _
    · split
      · exact herror _ _ _
      · cases label with
        | none => exact herror _ _ _
        | some label => exact hnote _ _ _
  unfold fileSection
  dsimp only
  split
  · exact herror _ _ _
  · split
    · exact hnote _ _ _
    · split
      · exact herror _ _ _
      · split
        · exact hpaths _ _ _ _ _
        · exact hwithout _ _ _

theorem fileSection_every (h : EveryHunk quoted lines holds) {at_ : Nat} {line : Text}
    {ordinal : Nat} : ∀ hunk ∈ (fileSection quoted lines at_ line ordinal).hunks, holds hunk := by
  apply fileSection_cases fun found => ∀ hunk ∈ found.hunks, holds hunk
  · simp [sectionError]
  · simp [sectionNote]
  · exact fun _ _ _ => hunksFrom_every h (by simp)

theorem sectionsFrom_every (h : EveryHunk quoted lines holds) {at_ ordinal sections : Nat}
    {parsed : DiffHunks} (hparsed : ∀ hunk ∈ parsed.hunks, holds hunk) :
    ∀ hunk ∈ (sectionsFrom quoted lines at_ ordinal sections parsed).hunks, holds hunk := by
  fun_induction sectionsFrom quoted lines at_ ordinal sections parsed with
  | case1 => simp [refused]
  | case2 => exact hparsed
  | case3 => simp [refused]
  | case4 at_ ordinal sections parsed line hline hcombined hopens read ih =>
    exact ih (List.forall_mem_append.mpr ⟨hparsed, fileSection_every h⟩)
  | case5 at_ ordinal sections parsed line hline hcombined hopens ih => exact ih hparsed

theorem unbroken_diffLines (text : Text) : Unbroken (diffLines text) := by
  have hsplit := unbroken_splitLines text
  unfold diffLines
  dsimp only
  split
  · exact fun line hline => hsplit line (List.mem_of_mem_dropLast hline)
  · exact hsplit

/-- Every hunk of a diff is one that the reader ensured. -/
theorem diffHunks_sound (quoted : Text → Text) (text : Text) :
    ∀ hunk ∈ (diffHunks quoted text).hunks, hunk.Sound :=
  sectionsFrom_every (fun h => hunk_sound (unbroken_diffLines text) h) (by simp)

end Read

/-- Python's repr of a text without quotes, backslashes and control characters. -/
def inQuotes (text : Text) : Text := '\'' :: text ++ ['\'']

/-- A diff of the file `f` with one hunk. -/
def oneHunk (hunk : String) : Text := ("--- a/f\n+++ b/f\n" ++ hunk).toList

end Agentless.Patch

/-!
## When an edit tells its hunk apart

An edit joins the lines of each side, and the join of no line is the join of one blank line. A
hunk with a side of one of these two forms shares its edit with another hunk that can be read.
-/

namespace Agentless.Patch

open Text Text.Diff

/-- The hunk that removes the lines of `pre` and adds the lines of `post`. -/
def rewrite (pre post : List Text) (hpre : pre.length < 2 ^ 64) (hpost : post.length < 2 ^ 64) :
    Written where
  aStart := 0
  aEnd := pre.length
  bStart := 0
  bEnd := post.length
  body := Diff.marked '-' pre ++ Diff.marked '+' post
  marked := by
    refine List.forall_mem_append.mpr ⟨?_, ?_⟩ <;> intro line hline <;>
      obtain ⟨content, -, rfl⟩ := List.mem_map.mp hline
    · exact ⟨'-', content, rfl, by simp⟩
    · exact ⟨'+', content, rfl, by simp⟩
  pre := by simp [preImage_marked]
  post := by simp [postImage_marked]
  aLimit := hpre
  bLimit := hpost

section Pairs

variable (quoted : Text → Text)

/-- Any two lists of lines are the sides of a hunk that can be read, unless it anchors nowhere. -/
theorem exists_hunk {pre post : List Text} (hne : pre ≠ []) (hpre : Unbroken pre)
    (hpost : Unbroken post) (hpreLimit : pre.length < 2 ^ 64) (hpostLimit : post.length < 2 ^ 64) :
    ∃ text, ∃ hunk ∈ (diffHunks quoted text).hunks,
      hunk.newFile = false ∧ hunk.pre = pre ∧ hunk.post = post := by
  let written := rewrite pre post hpreLimit hpostLimit
  have hfollows : Follows false 0 [written] :=
    ⟨.inl (List.length_pos_iff.mpr hne), Nat.zero_le _, trivial⟩
  have hbodies : ∀ other ∈ [written], Unbroken other.body := by
    intro other hother
    obtain rfl := List.mem_singleton.mp hother
    refine unbroken_append.mpr ⟨?_, ?_⟩ <;> intro line hline <;>
      obtain ⟨content, hcontent, rfl⟩ := List.mem_map.mp hline
    · simpa using hpre content hcontent
    · simpa using hpost content hcontent
  have hread := plainPath.diffHunks_diff quoted (by simp) hfollows hbodies (.inl rfl)
  refine ⟨joinLines (plainPath.diff false [written]) ++ [], written.read plainPath.name false 0,
    ?_, rfl, ?_, ?_⟩
  · rw [hread]
    simp [readAll]
  · show preImage (Diff.marked '-' pre ++ Diff.marked '+' post) = pre
    simp [preImage_marked]
  · show postImage (Diff.marked '-' pre ++ Diff.marked '+' post) = post
    simp [postImage_marked]

/-- The edit of a hunk has a search text, and no other hunk that can be read has the same pair of
texts. -/
structure Hunk.Distinct (hunk : Hunk) : Prop where
  anchored : hunk.edit.search ≠ []
  determined : ∀ text, ∀ other ∈ (diffHunks quoted text).hunks, other.newFile = false →
    other.edit.search = hunk.edit.search → other.edit.replace = hunk.edit.replace →
    other.pre = hunk.pre ∧ other.post = hunk.post

/-- The edit of a hunk into an existing file tells it apart exactly when its pre-image is not one
blank line and its post-image is neither empty nor one blank line. -/
theorem parseUnifiedDiff_distinct_iff (text : Text) {hunk : Hunk}
    (hhunk : hunk ∈ (diffHunks quoted text).hunks) (hfile : hunk.newFile = false) :
    hunk.Distinct quoted ↔ hunk.pre ≠ [[]] ∧ hunk.post ≠ [] ∧ hunk.post ≠ [[]] := by
  have hsound := diffHunks_sound quoted text hunk hhunk
  have hpre := hsound.anchored hfile
  constructor
  · rintro ⟨hanchored, hdetermined⟩
    -- a hunk with the same pre-image and another post-image of the same join
    have hother (post : List Text) (hpost : Unbroken post) (hlimit : post.length < 2 ^ 64)
        (hjoin : joinLines post = joinLines hunk.post) : post = hunk.post := by
      obtain ⟨text', other, hmem, hnew, hotherPre, rfl⟩ :=
        exists_hunk quoted hpre hsound.preLines hpost hsound.preLimit hlimit
      refine (hdetermined text' other hmem hnew ?_ hjoin).2
      simp only [Hunk.edit, hotherPre]
    refine ⟨?_, ?_, ?_⟩
    · intro hblank
      exact hanchored (by simp [Hunk.edit, hblank])
    · intro hempty
      have := hother [[]] (by simp [Unbroken]) (by simp) (by simp [hempty])
      simp [hempty] at this
    · intro hblank
      have := hother [] (by simp [Unbroken]) (by simp) (by simp [hblank])
      simp [hblank] at this
  · rintro ⟨hblank, hempty, hpostBlank⟩
    refine ⟨?_, fun text' other hmem hnew hsearch hreplace => ?_⟩
    · simpa [Hunk.edit, joinLines_eq_nil] using ⟨hpre, hblank⟩
    · have hotherSound := diffHunks_sound quoted text' other hmem
      refine ⟨?_, ?_⟩
      · exact (joinLines_inj (hotherSound.anchored hnew) hpre hotherSound.preLines
          hsound.preLines).mp hsearch
      · have hotherPost : other.post ≠ [] := by
          intro hnil
          have hjoin : joinLines hunk.post = [] := by
            simpa [Hunk.edit, hnil] using hreplace.symm
          rcases joinLines_eq_nil.mp hjoin with h | h
          · exact hempty h
          · exact hpostBlank h
        exact (joinLines_inj hotherPost hempty hotherSound.postLines hsound.postLines).mp hreplace

end Pairs

theorem parseUnifiedDiff_distinct_iff_one_line :
    Hunk.Distinct inQuotes ⟨0, "f".toList, ["y".toList], ["z".toList], false⟩ ↔
      ["y".toList] ≠ [[]] ∧ ["z".toList] ≠ [] ∧ ["z".toList] ≠ [[]] :=
  @parseUnifiedDiff_distinct_iff inQuotes (oneHunk "@@ -2 +2 @@\n-y\n+z\n")
    ⟨0, "f".toList, ["y".toList], ["z".toList], false⟩ (by decide +kernel) rfl

/-- A hunk that replaces a blank line in an existing file has an empty search text, as an edit
that creates a file has. -/
theorem parseUnifiedDiff_blank_line_empty_search :
    ∃ hunk ∈ (diffHunks inQuotes (oneHunk "@@ -2 +2 @@\n-\n+z\n")).hunks,
      hunk.newFile = false ∧ hunk.edit.search = [] ∧ ¬ hunk.Distinct inQuotes := by
  refine ⟨⟨0, "f".toList, [[]], ["z".toList], false⟩, by decide +kernel, rfl, rfl, ?_⟩
  exact fun hdistinct => hdistinct.anchored rfl

end Agentless.Patch
