import Agentless.Library.Boundary
import Agentless.Patch.Hunks

/-!
# The numbers and counts of a diff

1. A hunk that is read takes the lines that its header declares on each side, and no more.
2. The hunks and refusals of one section carry the numbers from its first on.
3. So those of a whole diff carry the first numbers, each once and in order.
-/

namespace Agentless.Patch

open Text

/-! ## The lines of a body -/

/-- The line that a body line puts into the pre-image: a context line or a removed one. -/
def oldLine (line : Text) : Option Text :=
  if noNewline.isPrefixOf line then none
  else if (marked line).1 = ' ' ∨ (marked line).1 = '-' then some (marked line).2
  else none

/-- The line that a body line puts into the post-image: a context line or an added one. -/
def newLine (line : Text) : Option Text :=
  if noNewline.isPrefixOf line then none
  else if (marked line).1 = ' ' ∨ (marked line).1 = '+' then some (marked line).2
  else none

/-- A hunk that was read at a header: its sides are those of the lines after the header, as many as
the header declares. -/
structure Hunk.ReadAt (lines : List Text) (at_ stop : Nat) (counts : Counts) (hunk : Hunk) :
    Prop where
  header : lines[at_]?.bind parseHeader = some counts
  pre : hunk.pre = (slice lines (at_ + 1) stop).filterMap oldLine
  post : hunk.post = (slice lines (at_ + 1) stop).filterMap newLine
  preCount : hunk.pre.length = counts.oldCount
  postCount : hunk.post.length = counts.newCount

section Body

variable {quoted : Text → Text}

theorem Tally.take_eq_of_fits {tally : Tally} {line : Text} (hmarker : ¬ noNewline.isPrefixOf line)
    (hfits : tally.fits (marked line).1 = some true) :
    tally.take (marked line).1 (marked line).2 =
      { tally with
        old := tally.old ++ (oldLine line).toList
        new := tally.new ++ (newLine line).toList } := by
  generalize hmarked : marked line = mark at hfits ⊢
  obtain ⟨marker, content⟩ := mark
  by_cases hspace : marker = ' '
  · subst hspace
    simp [Tally.take, oldLine, newLine, hmarker, hmarked]
  · by_cases hminus : marker = '-'
    · subst hminus
      simp [Tally.take, oldLine, newLine, hmarker, hmarked]
    · have hplus : marker = '+' := by
        by_contra hplus
        simp [Tally.fits, hspace, hminus, hplus] at hfits
      subst hplus
      simp [Tally.take, oldLine, newLine, hmarker, hmarked]

theorem bodyFrom_consumed {path header : Text} {rest : List Text} {next next' : Nat}
    {tally tally' : Tally} (h : bodyFrom quoted path header rest next tally = .ok (tally', next')) :
    tally'.old = tally.old ++ (rest.take (next' - next)).filterMap oldLine ∧
      tally'.new = tally.new ++ (rest.take (next' - next)).filterMap newLine := by
  fun_induction bodyFrom quoted path header rest next tally with
  | case1 => simp at h
  | case2 next tally hopen line rest hmarker ih =>
    have hle := (bodyFrom_next quoted h).1
    rw [show next' - next = next' - (next + 1) + 1 by omega, List.take_succ_cons]
    simpa [oldLine, newLine, hmarker] using ih h
  | case3 next tally hopen line rest hmarker hfits ih =>
    have hle := (bodyFrom_next quoted h).1
    obtain ⟨hold, hnew⟩ := ih h
    rw [Tally.take_eq_of_fits hmarker hfits] at hold hnew
    rw [hold, hnew, show next' - next = next' - (next + 1) + 1 by omega, List.take_succ_cons]
    cases hfirst : oldLine line <;> cases hsecond : newLine line <;> simp [hfirst, hsecond]
  | case4 => simp at h
  | case5 => simp at h
  | case6 rest next tally hclosed =>
    obtain ⟨rfl, rfl⟩ : tally = tally' ∧ next = next' := by simpa using h
    simp

theorem hunkBody_consumed {lines : List Text} {at_ : Nat} {counts : Counts} {path header : Text}
    {body : Body} (h : hunkBody quoted lines at_ counts path header = .ok body) :
    ∃ stop, body.search = (slice lines at_ stop).filterMap oldLine ∧
      body.replace = (slice lines at_ stop).filterMap newLine := by
  unfold hunkBody at h
  split at h
  · simp at h
  · rename_i tally next hread
    obtain rfl := Except.ok.inj h
    obtain ⟨hold, hnew⟩ := bodyFrom_consumed hread
    exact ⟨next, by simpa [slice] using hold, by simpa [slice] using hnew⟩

theorem hunkCounts_parse {header : Text} {target : Target} {floor : Nat} {counts : Counts}
    (h : hunkCounts quoted header target floor = .ok counts) : parseHeader header = some counts := by
  unfold hunkCounts at h
  split at h
  · simp at h
  · split at h
    · simp at h
    · rename_i found hfound
      dsimp only at h
      split_ifs at h
      exact hfound.trans (congrArg some (Except.ok.inj h))

theorem hunk_readAt {lines : List Text} (hlines : Unbroken lines) {at_ : Nat} {header : Text}
    (hheader : lines[at_]? = some header) {target : Target} {index floor : Nat}
    {found : Hunk × Nat × Nat} (h : hunk quoted lines at_ header target index floor = .ok found) :
    found.1.index = index ∧ ∃ stop counts, found.1.ReadAt lines at_ stop counts := by
  unfold hunk at h
  dsimp only at h
  split at h
  · simp at h
  · rename_i counts hcounts
    split at h
    · simp at h
    · rename_i body hbody
      split_ifs at h
      obtain rfl := Except.ok.inj h
      obtain ⟨stop, hpre, hpost⟩ := hunkBody_consumed hbody
      have hdeclared := hunkBody_declared hlines hbody
      refine ⟨rfl, stop, counts, ?_, hpre, hpost, hdeclared.search, hdeclared.replace⟩
      rw [hheader, Option.bind_some, hunkCounts_parse hcounts]

theorem hunk_refusal_index {lines : List Text} {at_ : Nat} {header : Text} {target : Target}
    {index floor : Nat} {refusal : BlockError}
    (h : hunk quoted lines at_ header target index floor = .error refusal) :
    refusal.index = index := by
  unfold hunk at h
  dsimp only at h
  split at h
  · cases h
    rfl
  · split at h
    · cases h
      rfl
    · split_ifs at h
      cases h
      rfl

end Body

/-! ## The numbers of one section -/

section Sections

variable {quoted : Text → Text} {lines : List Text}

/-- The hunks and then the refusals carry the numbers from `ordinal` on, and each hunk was read at
a header of the lines. -/
structure Section.Accounts (lines : List Text) (ordinal : Nat) (found : Section) : Prop where
  numbers : found.hunks.map (·.index) ++ found.errors.map (·.index) =
    List.range' ordinal (found.ordinal - ordinal)
  le : ordinal ≤ found.ordinal
  read : ∀ hunk ∈ found.hunks, ∃ at_ stop counts, hunk.ReadAt lines at_ stop counts

theorem endHunks_accounts {target : Target} {resume next index ordinal : Nat} {header : Text}
    {read : List Hunk} (hnumbers : read.map (·.index) = List.range' ordinal (index - ordinal))
    (hle : ordinal ≤ index)
    (hread : ∀ hunk ∈ read, ∃ at_ stop counts, hunk.ReadAt lines at_ stop counts) :
    (endHunks lines target resume next index header read).Accounts lines ordinal := by
  unfold endHunks
  split_ifs
  · refine ⟨?_, by dsimp only [refusedSection]; omega, hread⟩
    simp only [refusedSection, List.map_cons, List.map_nil, hnumbers]
    rw [Nat.sub_add_comm hle, List.range'_concat, Nat.one_mul, Nat.add_sub_cancel' hle]
  · exact ⟨by simpa using hnumbers, hle, hread⟩

theorem hunksFrom_accounts (hlines : Unbroken lines) {target : Target}
    {resume next index floor ordinal : Nat} {header : Text} {read : List Hunk}
    (hnumbers : read.map (·.index) = List.range' ordinal (index - ordinal))
    (hle : ordinal ≤ index)
    (hread : ∀ hunk ∈ read, ∃ at_ stop counts, hunk.ReadAt lines at_ stop counts) :
    (hunksFrom quoted lines target resume next index floor header read).Accounts lines ordinal := by
  fun_induction hunksFrom quoted lines target resume next index floor header read with
  | case1 next index floor header read hline => exact endHunks_accounts hnumbers hle hread
  | case2 next index floor header read line hline hopens refusal hrefusal =>
    have hindex := hunk_refusal_index hrefusal
    refine ⟨?_, by dsimp only [refusedSection]; omega, hread⟩
    simp only [refusedSection, List.map_cons, List.map_nil, hnumbers, hindex]
    rw [Nat.sub_add_comm hle, List.range'_concat, Nat.one_mul, Nat.add_sub_cancel' hle]
  | case3 next index floor header read line hline hopens found after raised hhunk ih =>
    obtain ⟨hindex, hfound⟩ := hunk_readAt hlines hline hhunk
    refine ih ?_ (by omega) (List.forall_mem_append.mpr ⟨hread, by simpa using ⟨next, hfound⟩⟩)
    rw [Nat.sub_add_comm hle, List.range'_concat, Nat.one_mul, Nat.add_sub_cancel' hle,
      List.map_append, hnumbers, List.map_singleton, hindex]
  | case4 next index floor header read line hline hopens =>
    exact endHunks_accounts hnumbers hle hread

theorem fileSection_accounts (hlines : Unbroken lines) (at_ : Nat) (line : Text) (ordinal : Nat) :
    (fileSection quoted lines at_ line ordinal).Accounts lines ordinal := by
  refine fileSection_cases (Section.Accounts lines ordinal) (fun path resume reason => ?_)
    (fun path resume reason => ?_) (fun hheader target resume => ?_) at_ line
  · exact ⟨by simp [sectionError], by simp [sectionError], by simp [sectionError]⟩
  · exact ⟨by simp [sectionNote], by simp [sectionNote], by simp [sectionNote]⟩
  · exact hunksFrom_accounts hlines (by simp) le_rfl (by simp)

/-! ## The numbers of a whole diff -/

/-- The hunks and refusals carry the numbers before `ordinal`, each once and each list in order. -/
structure DiffHunks.Accounts (lines : List Text) (ordinal : Nat) (parsed : DiffHunks) : Prop where
  numbers : (parsed.hunks.map (·.index) ++ parsed.errors.map (·.index)).Perm (List.range ordinal)
  hunksSorted : (parsed.hunks.map (·.index)).Pairwise (· < ·)
  errorsSorted : (parsed.errors.map (·.index)).Pairwise (· < ·)
  read : ∀ hunk ∈ parsed.hunks, ∃ at_ stop counts, hunk.ReadAt lines at_ stop counts

theorem pairwise_append_of_bound {early late : List Nat} {ordinal : Nat}
    (hearly : early.Pairwise (· < ·)) (hlate : late.Pairwise (· < ·))
    (hbelow : ∀ number ∈ early, number < ordinal) (habove : ∀ number ∈ late, ordinal ≤ number) :
    (early ++ late).Pairwise (· < ·) :=
  List.pairwise_append.mpr ⟨hearly, hlate, fun number hnumber other hother =>
    (hbelow number hnumber).trans_le (habove other hother)⟩

theorem DiffHunks.Accounts.add {parsed : DiffHunks} {ordinal : Nat} {found : Section}
    (h : parsed.Accounts lines ordinal) (hfound : found.Accounts lines ordinal) :
    DiffHunks.Accounts lines found.ordinal
      { hunks := parsed.hunks ++ found.hunks
        errors := parsed.errors ++ found.errors
        notes := parsed.notes ++ found.notes } := by
  obtain ⟨hnumbers, hhunks, herrors, hread⟩ := h
  obtain ⟨hnew, hle, hnewRead⟩ := hfound
  have hbelow : ∀ number ∈ parsed.hunks.map (·.index) ++ parsed.errors.map (·.index),
      number < ordinal := fun number hnumber => List.mem_range.mp (hnumbers.mem_iff.mp hnumber)
  have habove : ∀ number ∈ found.hunks.map (·.index) ++ found.errors.map (·.index),
      ordinal ≤ number := by
    intro number hnumber
    rw [hnew] at hnumber
    exact (List.mem_range'_1.mp hnumber).1
  have hsorted : (found.hunks.map (·.index) ++ found.errors.map (·.index)).Pairwise (· < ·) := by
    rw [hnew]
    exact List.pairwise_lt_range'
  obtain ⟨hsortedHunks, hsortedErrors, -⟩ := List.pairwise_append.mp hsorted
  rw [List.forall_mem_append] at hbelow habove
  refine ⟨?_, ?_, ?_, List.forall_mem_append.mpr ⟨hread, hnewRead⟩⟩
  · have hrange : List.range found.ordinal =
        List.range ordinal ++ List.range' ordinal (found.ordinal - ordinal) := by
      have happend := @List.range'_append_1 0 ordinal (found.ordinal - ordinal)
      rw [Nat.zero_add, Nat.add_sub_cancel' hle] at happend
      rw [List.range_eq_range', List.range_eq_range', happend]
    rw [hrange, ← hnew]
    refine List.Perm.trans ?_ (hnumbers.append_right _)
    simp only [List.map_append, List.append_assoc]
    refine List.Perm.append_left _ ?_
    rw [← List.append_assoc, ← List.append_assoc]
    exact List.perm_append_comm.append_right _
  · rw [List.map_append]
    exact pairwise_append_of_bound hhunks hsortedHunks hbelow.1 habove.1
  · rw [List.map_append]
    exact pairwise_append_of_bound herrors hsortedErrors hbelow.2 habove.2

theorem refused_accounts (reason : Text) : (refused reason).Accounts lines 1 :=
  ⟨by simp [refused], by simp [refused], by simp [refused], by simp [refused]⟩

theorem sectionsFrom_accounts (hlines : Unbroken lines) {at_ ordinal sections : Nat}
    {parsed : DiffHunks} (h : parsed.Accounts lines ordinal) :
    ∃ count, (sectionsFrom quoted lines at_ ordinal sections parsed).Accounts lines count := by
  fun_induction sectionsFrom quoted lines at_ ordinal sections parsed with
  | case1 => exact ⟨1, refused_accounts _⟩
  | case2 at_ ordinal sections parsed => exact ⟨ordinal, h⟩
  | case3 => exact ⟨1, refused_accounts _⟩
  | case4 at_ ordinal sections parsed line hline hcombined hopens read ih =>
    exact ih (h.add (fileSection_accounts hlines at_ line ordinal))
  | case5 at_ ordinal sections parsed line hline hcombined hopens ih => exact ih h

end Sections

/-- Every section and every hunk that is read moves the cursor on, so the reader ends on every text;
its edits and refusals carry the first numbers, each once and in order; and every edit is that of a
hunk with as many lines on each side as its header declares. -/
theorem parseUnifiedDiff_accounts (quoted : Text → Text) (text : Text) :
    (∀ at_ line ordinal, (diffLines text)[at_]? = some line → opensSection line = true →
      at_ < (fileSection quoted (diffLines text) at_ line ordinal).next) ∧
    (∀ at_ header target index floor found,
      hunk quoted (diffLines text) at_ header target index floor = .ok found → at_ < found.2.1) ∧
    ((parseUnifiedDiff quoted text).result.edits.map (·.index) ++
      (parseUnifiedDiff quoted text).result.errors.map (·.index)).Perm
        (List.range ((parseUnifiedDiff quoted text).result.edits.length +
          (parseUnifiedDiff quoted text).result.errors.length)) ∧
    ((parseUnifiedDiff quoted text).result.edits.map (·.index)).Pairwise (· < ·) ∧
    ((parseUnifiedDiff quoted text).result.errors.map (·.index)).Pairwise (· < ·) ∧
    ∀ edit ∈ (parseUnifiedDiff quoted text).result.edits, ∃ hunk : Hunk, edit = hunk.edit ∧
      ∃ at_ stop counts, hunk.ReadAt (diffLines text) at_ stop counts := by
  have hempty : ({} : DiffHunks).Accounts (diffLines text) 0 :=
    ⟨List.Perm.refl _, .nil, .nil, nofun⟩
  obtain ⟨count, hnumbers, hhunks, herrors, hread⟩ :
      ∃ count, (diffHunks quoted text).Accounts (diffLines text) count :=
    sectionsFrom_accounts (unbroken_diffLines text) hempty
  have hindex : ((diffHunks quoted text).hunks.map Hunk.edit).map (·.index) =
      (diffHunks quoted text).hunks.map (·.index) := by
    rw [List.map_map]
    rfl
  have hcount := hnumbers.length_eq
  rw [List.length_append, List.length_map, List.length_map, List.length_range] at hcount
  unfold parseUnifiedDiff
  dsimp only
  rw [hindex, List.length_map, hcount]
  refine ⟨fun at_ line ordinal hline hopens => fileSection_next quoted ordinal hline hopens,
    fun _ _ _ _ _ _ hhunk => hunk_next quoted hhunk, hnumbers, hhunks, herrors, fun edit hedit => ?_⟩
  obtain ⟨found, hfound, rfl⟩ := List.mem_map.mp hedit
  exact ⟨found, rfl, hread found hfound⟩

end Agentless.Patch
