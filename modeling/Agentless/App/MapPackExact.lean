import Agentless.App.MapPack

/-!
# What a packed map costs

The size of a rendered prefix is the sum over the ranked files of what their headers, id patterns,
symbol rows and omission lines take. One more symbol adds its rows, and takes its file's omission
line away when it is the last of the file.
-/

namespace Agentless.App

open Facts Agentless.Graph Prompts Text

theorem idPrefix_ne_nil (language : Syntax.Language) : language.idPrefix ≠ [] := by
  cases language <;> decide

theorem stableIdsLine_ne_nil {langPrefix : Text} (h : langPrefix ≠ []) (path : Text) :
    stableIdsLine langPrefix path ≠ [] := by
  rw [stableIdsLine, if_neg h]
  exact List.cons_ne_nil _ _

def rowsSize (candidate : Candidate) : Nat := linesSize (entryRows (entry candidate))

/-- A symbol row holds at least its indent, the two spaces, the brackets, the line and its
break. -/
theorem nine_le_rowsSize (candidate : Candidate) : 9 ≤ rowsSize candidate := by
  have hdigits : 0 < (Nat.toDigits 10 (entry candidate).line).length := Nat.length_toDigits_pos
  simp only [rowsSize, entryRows, linesSize_cons, List.length_append, locator, rowIndent,
    List.length_cons, String.length_toList]
  simp only [if_true,
    show "  ".length = 2 from rfl, show "] @".length = 3 from rfl]
  omega

def omissionSize (reached : Bool) (omitted : Nat) : Nat :=
  linesSize (omissionText reached omitted).toList

@[simp] theorem omissionSize_zero (reached : Bool) : omissionSize reached 0 = 0 := rfl

theorem omissionSize_eq (reached : Bool) {omitted : Nat} (h : omitted ≠ 0) :
    omissionSize reached omitted = (Nat.toDigits 10 omitted).length +
      (if reached then if omitted = 1 then 41 else 42
        else if omitted = 1 then 87 else 90) := by
  unfold omissionSize omissionText fill
  rw [if_neg h]
  cases reached <;> by_cases hone : omitted = 1 <;>
    simp [mapSymbolsUnlisted, mapFileUnreached, Piece.filled, Filled.ofCount, hone]

/-- The line for one symbol more is longer by a digit and a plural at most. -/
theorem omissionSize_succ_le (reached : Bool) {omitted : Nat} (h : omitted ≠ 0) :
    omissionSize reached (omitted + 1) ≤ omissionSize reached omitted + 4 := by
  have hdigits := length_toDigits_succ_le omitted
  rw [omissionSize_eq reached h, omissionSize_eq reached (Nat.succ_ne_zero omitted)]
  grind

/-! ## The size of a prefix -/

namespace Packing
variable {Rank : Type} (packing : Packing Rank) (fixed : Rank → Nat → Text)

def headerSize (path : Text) : Nat :=
  (oneLine path).length + (fixed (packing.ranked.rank path) 4).length + "  (rank )".length + 1

def patternSize (path : Text) : Nat :=
  (stableIdsLine (packing.ranked.file path).language.idPrefix path).length + 1

/-- What the file at `path` takes when the first `shown` symbols are kept, with the blank line
after it. -/
def fileSize (shown : Nat) (path : Text) : Nat :=
  packing.headerSize fixed path +
    (if packing.perFile shown path = [] then 0 else packing.patternSize path) +
    ((packing.perFile shown path).map rowsSize).sum +
    omissionSize (packing.ranked.reached path)
      (packing.totals path - (packing.perFile shown path).length) + 1

/-- One more than the size of the rows for the first `shown` symbols. -/
def footprint (shown : Nat) : Nat :=
  if packing.ranked.chosen = [] then "no ranked files\n".length + 1
  else (packing.ranked.chosen.map (packing.fileSize fixed shown)).sum

variable {packing fixed} {shown : Nat} {path : Text}

theorem byLine_perm (packing : Packing Rank) (shown : Nat) (path : Text) :
    (packing.byLine shown path).Perm (packing.perFile shown path) := List.perm_insertionSort _ _

theorem mem_perFile {candidate : Candidate} (h : candidate ∈ packing.perFile shown path) :
    candidate ∈ packing.eligible ∧ candidate.file.path = path := by
  obtain ⟨htake, hpath⟩ := List.mem_filter.mp h
  exact ⟨List.mem_of_mem_take htake, of_decide_eq_true hpath⟩

theorem mapFile_idPrefix : (packing.mapFile shown path).idPrefix =
    if packing.perFile shown path = [] then []
    else (packing.ranked.file path).language.idPrefix := by
  have hperm := byLine_perm packing shown path
  unfold mapFile
  dsimp only
  cases hsorted : packing.byLine shown path with
  | nil =>
    rw [hsorted] at hperm
    rw [if_pos hperm.nil_eq.symm]
    rfl
  | cons first rest =>
    rw [hsorted] at hperm
    have hne : packing.perFile shown path ≠ [] := by
      rintro hnil
      rw [hnil] at hperm
      exact List.cons_ne_nil _ _ hperm.eq_nil
    obtain ⟨hmem, rfl⟩ := mem_perFile (hperm.subset List.mem_cons_self)
    rw [if_neg hne, ← packing.placed first hmem]
    rfl

theorem linesSize_entries : linesSize ((packing.mapFile shown path).entries.flatMap entryRows) =
    ((packing.perFile shown path).map rowsSize).sum := by
  have hsum : ∀ candidates : List Candidate,
      linesSize ((candidates.map entry).flatMap entryRows) = (candidates.map rowsSize).sum := by
    intro candidates
    induction candidates with
    | nil => rfl
    | cons candidate candidates ih =>
      rw [List.map_cons, List.flatMap_cons, linesSize_append, ih, List.map_cons, List.sum_cons]
      rfl
  rw [← ((byLine_perm packing shown path).map rowsSize).sum_eq, ← hsum]
  rfl

theorem omission_mapFile : omission (packing.mapFile shown path) =
    omissionText (packing.ranked.reached path)
      (packing.totals path - (packing.perFile shown path).length) := by
  unfold omission MapFile.omitted mapFile
  dsimp only
  rw [List.length_map, (byLine_perm packing shown path).length_eq]

theorem linesSize_pattern :
    linesSize (if stableIdsLine (packing.mapFile shown path).idPrefix path = [] then []
      else [stableIdsLine (packing.mapFile shown path).idPrefix path]) =
    if packing.perFile shown path = [] then 0 else packing.patternSize path := by
  rw [mapFile_idPrefix]
  by_cases hnone : packing.perFile shown path = []
  · rw [if_pos hnone, if_pos hnone]
    rfl
  · rw [if_neg hnone, if_neg hnone, if_neg (stableIdsLine_ne_nil (idPrefix_ne_nil _) path)]
    rfl

theorem length_fileBlock (wallpaper : Bool) :
    (fileBlock fixed (packing.mapFile shown path) wallpaper).length + 2 =
      packing.fileSize fixed shown path := by
  have hchurn : (if wallpaper then [] else churnClause (packing.mapFile shown path)) = [] := by
    cases wallpaper <;> rfl
  rw [fileBlock, ← Nat.add_assoc _ 1 1, length_joinLines (by exact List.cons_ne_nil _ _)]
  unfold fileLines
  dsimp only
  rw [hchurn]
  simp only [linesSize_append, linesSize_cons, List.cons_append]
  rw [linesSize_entries, omission_mapFile]
  change _ + (linesSize (if stableIdsLine (packing.mapFile shown path).idPrefix path = [] then []
      else [stableIdsLine (packing.mapFile shown path).idPrefix path]) + _ + _) + 1 = _
  rw [linesSize_pattern]
  unfold fileSize headerSize omissionSize
  simp [mapFile, show "  (rank )".length = 9 from rfl]
  omega

theorem length_mapRowsText (h : shown ≤ packing.eligible.length) :
    (mapRowsText fixed (packing.group shown)).length + 1 = packing.footprint fixed shown := by
  unfold mapRowsText footprint group
  rw [Nat.min_eq_left h, List.isEmpty_map]
  by_cases hchosen : packing.ranked.chosen = []
  · simp [hchosen]
    rfl
  · rw [if_neg (by simpa using hchosen), if_neg hchosen]
    dsimp only
    generalize (1 < _ && _ : Bool) = wallpaper
    calc _ = _ + "\n\n".toList.length := by rw [List.length_append]; rfl
      _ = _ := length_intercalate (by simpa using hchosen)
      _ = _ := by
        rw [List.map_map, List.map_map]
        exact congrArg List.sum (List.map_congr_left fun path _ => length_fileBlock wallpaper)

/-- The prefix fits exactly when its footprint is within the budget's characters. -/
theorem fits_chars4_iff {budget : Nat} (h : shown ≤ packing.eligible.length) :
    packing.fits fixed chars4 budget shown = true ↔ packing.footprint fixed shown ≤ 4 * (budget + 1) := by
  rw [fits, decide_eq_true_iff, chars4_le_iff, ← length_mapRowsText h]
  omega

/-! ## One symbol more -/

/-- What the rows of the symbol at `shown` take, with its file's id pattern when it is the file's
first. -/
def added (packing : Packing Rank) (shown : Nat) (candidate : Candidate) : Nat :=
  rowsSize candidate +
    if packing.perFile shown candidate.file.path = [] then packing.patternSize candidate.file.path
    else 0

/-- The symbol is the last of its file that the map leaves out. -/
def Completes (packing : Packing Rank) (shown : Nat) (candidate : Candidate) : Prop :=
  candidate.file.path ∈ packing.ranked.chosen ∧
    packing.totals candidate.file.path = (packing.perFile shown candidate.file.path).length + 1

section Step
variable {candidate : Candidate} (fixed)

theorem perFile_succ (h : packing.eligible[shown]? = some candidate) :
    packing.perFile (shown + 1) path = packing.perFile shown path ++
      if candidate.file.path = path then [candidate] else [] := by
  unfold perFile
  rw [List.take_add_one, List.filter_append, h]
  by_cases hpath : candidate.file.path = path <;> simp [hpath]

theorem fileSize_succ_other (h : packing.eligible[shown]? = some candidate)
    (hpath : candidate.file.path ≠ path) :
    packing.fileSize fixed (shown + 1) path = packing.fileSize fixed shown path := by
  unfold fileSize
  rw [perFile_succ h, if_neg hpath, List.append_nil]

theorem fileSize_succ_self (h : packing.eligible[shown]? = some candidate)
    (hpath : candidate.file.path = path) :
    packing.fileSize fixed (shown + 1) path + omissionSize (packing.ranked.reached path)
        (packing.totals path - (packing.perFile shown path).length) =
      packing.fileSize fixed shown path + (packing.added shown candidate +
        omissionSize (packing.ranked.reached path)
          (packing.totals path - ((packing.perFile shown path).length + 1))) := by
  subst hpath
  unfold fileSize added
  rw [perFile_succ h, if_pos rfl, if_neg (List.append_ne_nil_of_right_ne_nil _ (List.cons_ne_nil _ _)),
    List.map_append, List.sum_append, List.length_append, List.map_singleton, List.sum_singleton,
    List.length_singleton]
  split <;> omega

/-- Two sums over distinct elements that differ in one summand. -/
theorem sum_map_add {f g : Text → Nat} {paths : List Text} (hnodup : paths.Nodup)
    (hmem : path ∈ paths) (h : ∀ other ∈ paths, other ≠ path → f other = g other) :
    (paths.map f).sum + g path = (paths.map g).sum + f path := by
  have hperm := List.perm_cons_erase hmem
  have hrest : (paths.erase path).map f = (paths.erase path).map g :=
    List.map_congr_left fun other hother =>
      h other (List.mem_of_mem_erase hother) ((hnodup.mem_erase_iff.mp hother).1)
  rw [(hperm.map f).sum_eq, (hperm.map g).sum_eq, List.map_cons, List.map_cons, hrest]
  simp only [List.sum_cons]
  omega

theorem footprint_succ (h : packing.eligible[shown]? = some candidate)
    (hchosen : candidate.file.path ∈ packing.ranked.chosen) :
    packing.footprint fixed (shown + 1) + omissionSize (packing.ranked.reached candidate.file.path)
        (packing.totals candidate.file.path -
          (packing.perFile shown candidate.file.path).length) =
      packing.footprint fixed shown + (packing.added shown candidate +
        omissionSize (packing.ranked.reached candidate.file.path)
          (packing.totals candidate.file.path -
            ((packing.perFile shown candidate.file.path).length + 1))) := by
  have hsum := sum_map_add (f := packing.fileSize fixed (shown + 1))
    (g := packing.fileSize fixed shown) packing.ranked.nodup hchosen
    fun other _ hother => fileSize_succ_other fixed h (Ne.symm hother)
  have hself := fileSize_succ_self fixed h rfl
  unfold footprint
  rw [if_neg (List.ne_nil_of_mem hchosen), if_neg (List.ne_nil_of_mem hchosen)]
  omega

/-- The symbol that completes its file takes the file's omission line away. -/
theorem footprint_succ_of_completes (h : packing.eligible[shown]? = some candidate)
    (hlast : packing.Completes shown candidate) :
    packing.footprint fixed (shown + 1) +
        omissionSize (packing.ranked.reached candidate.file.path) 1 =
      packing.footprint fixed shown + packing.added shown candidate := by
  have hsucc := footprint_succ fixed h hlast.1
  rw [hlast.2, Nat.add_sub_cancel_left, Nat.sub_self, omissionSize_zero] at hsucc
  exact hsucc

/-- Any other symbol makes the map no smaller. -/
theorem footprint_le_succ (h : packing.eligible[shown]? = some candidate)
    (hlast : ¬packing.Completes shown candidate) :
    packing.footprint fixed shown ≤ packing.footprint fixed (shown + 1) := by
  by_cases hchosen : candidate.file.path ∈ packing.ranked.chosen
  · have hsucc := footprint_succ fixed h hchosen
    have hrows : 9 ≤ packing.added shown candidate :=
      (nine_le_rowsSize candidate).trans (Nat.le_add_right _ _)
    rw [Nat.sub_add_eq] at hsucc
    generalize homitted : packing.totals candidate.file.path -
      (packing.perFile shown candidate.file.path).length = omitted at hsucc
    match omitted with
    | 0 =>
      rw [omissionSize_zero] at hsucc
      omega
    | 1 => exact absurd ⟨hchosen, by omega⟩ hlast
    | omitted + 2 =>
      have hline : omissionSize (packing.ranked.reached candidate.file.path) (omitted + 2) ≤
          omissionSize (packing.ranked.reached candidate.file.path) (omitted + 1) + 4 :=
        omissionSize_succ_le _ (Nat.succ_ne_zero omitted)
      rw [Nat.add_sub_cancel (omitted + 1) 1] at hsucc
      omega
  · apply le_of_eq
    unfold footprint
    split
    · rfl
    · congr 1
      apply List.map_congr_left
      intro path hpath
      refine (fileSize_succ_other fixed h ?_).symm
      rintro rfl
      exact hchosen hpath

end Step

/-- The search over the rendered rows keeps the longest prefix that fits exactly when every prefix
that it measures on the way there, and that is no longer, is within the budget by its rows. What
the search takes for granted, that each prefix of a fitting prefix fits, holds exactly when no
symbol that completes its file gives back enough of an omission line to bring a map from over the
budget to within it. -/
theorem pack_largest_iff (packing : Packing Rank) (fixed : Rank → Nat → Text) (budget : Nat) :
    (LargestFit (packing.fits fixed chars4 budget) 0 packing.eligible.length
        (packing.pack fixed chars4 budget) ↔
      ∃ count, LargestFit (packing.fits fixed chars4 budget) 0 packing.eligible.length count ∧
        ∀ probe ∈ probes 0 packing.eligible.length count, probe ≤ count →
          packing.footprint fixed probe ≤ 4 * (budget + 1)) ∧
    ((∀ shorter longer, shorter ≤ longer → longer ≤ packing.eligible.length →
        packing.fits fixed chars4 budget longer = true →
        packing.fits fixed chars4 budget shorter = true) ↔
      ∀ shown candidate, packing.eligible[shown]? = some candidate →
        packing.Completes shown candidate → 4 * (budget + 1) < packing.footprint fixed shown →
        4 * (budget + 1) + omissionSize (packing.ranked.reached candidate.file.path) 1 <
          packing.footprint fixed shown + packing.added shown candidate) := by
  constructor
  · rw [pack, longestFitting_largest_iff]
    refine exists_congr fun count => and_congr_right fun hcount => forall₂_congr fun probe hprobe => ?_
    rw [fits_chars4_iff (probesFrom_bounds hprobe).2]
  · constructor
    · intro hclosed shown candidate hget hlast hover
      obtain ⟨hlength, -⟩ := List.getElem?_eq_some_iff.mp hget
      have hlength : shown + 1 ≤ packing.eligible.length := hlength
      have hsucc := footprint_succ_of_completes fixed hget hlast
      by_contra hwithin
      have hfits := hclosed shown (shown + 1) (by omega) hlength
        ((fits_chars4_iff hlength).mpr (by omega))
      have := (fits_chars4_iff (by omega)).mp hfits
      omega
    · intro hsteps shorter longer hle hlength
      induction longer, hle using Nat.le_induction with
      | base => exact id
      | succ longer hle ih =>
        intro hfits
        apply ih (by omega)
        rw [fits_chars4_iff hlength] at hfits
        rw [fits_chars4_iff (by omega)]
        obtain ⟨candidate, hget⟩ : ∃ candidate, packing.eligible[longer]? = some candidate :=
          ⟨_, List.getElem?_eq_getElem hlength⟩
        by_cases hlast : packing.Completes longer candidate
        · have hsucc := footprint_succ_of_completes fixed hget hlast
          by_contra hover
          have := hsteps longer _ hget hlast (by omega)
          omega
        · exact (footprint_le_succ fixed hget hlast).trans hfits

end Packing

/-! ## A map with room for both symbols -/

namespace LastSymbol

def path : Text := List.replicate 173 'd' ++ '/' :: List.replicate 173 'm' ++ ".py".toList

def file : FileFacts := ⟨path, .python, [], []⟩

def symbol (name : Char) (line : Nat) : Declared :=
  { name := [name], line, endLine := line, nameLine := line, parent := [], bases := []
    duplicateIndex := 0, kind := .function, signature := "def ".toList ++ name :: "()".toList
    rationales := [] }

def candidate (name : Char) (line : Nat) : Candidate :=
  { file, symbol := symbol name line
    stableId := stableId .python path (symbol name line).toSymbol }

/-- One ranked file with the two functions `f` and `g`. -/
def packing : Packing Unit where
  eligible := [candidate 'f' 1, candidate 'g' 2]
  totals := fun _ => 2
  ranked :=
    { chosen := [path], file := fun _ => file, rank := fun _ => (), reached := fun _ => true
      nodup := List.nodup_singleton _ }
  placed := by
    intro candidate hmem
    rcases List.mem_pair.mp hmem with rfl | rfl <;> rfl

/-- Both symbols fit 200 tokens and the first alone does not, so the search ends at none. -/
theorem pack_not_largest :
    packing.fits (fun _ _ => "1.0000".toList) chars4 200 2 = true ∧
      packing.fits (fun _ _ => "1.0000".toList) chars4 200 1 = false ∧
      packing.pack (fun _ _ => "1.0000".toList) chars4 200 = 0 ∧
      ¬LargestFit (packing.fits (fun _ _ => "1.0000".toList) chars4 200) 0 2
        (packing.pack (fun _ _ => "1.0000".toList) chars4 200) := by
  have hboth : packing.fits (fun _ _ => "1.0000".toList) chars4 200 2 = true := by decide +kernel
  have hnone : packing.pack (fun _ _ => "1.0000".toList) chars4 200 = 0 := by decide +kernel
  refine ⟨hboth, by decide +kernel, hnone, fun h => ?_⟩
  rw [hnone] at h
  rw [h.above 2 (by decide) (le_refl _)] at hboth
  cases hboth

end LastSymbol

end Agentless.App
