import Agentless.App.Expand
import Agentless.Git.History
import Agentless.Library.AsciiText
import Agentless.Text.Word

/-!
# The history of a symbol

The commits that touched one symbol's lines, with their bodies cut max-min fair to one token
budget.
-/

namespace Agentless.App.History

open Prompts Text

def bodyIndent : Text := "    ".toList

def shortShaLength : Nat := 8

structure HistoryEntry where
  sha : Text
  authored : Text
  subject : Text
  bodyLines : List Text
  bodyTotal : Nat
deriving DecidableEq, Repr

def HistoryEntry.shortSha (entry : HistoryEntry) : Text :=
  (strBetween entry.sha 0 shortShaLength).getD entry.sha

def HistoryEntry.bodyShown (entry : HistoryEntry) : Nat := entry.bodyLines.length

/-- Every body row is indented and escaped, so a marker in column 0 stays unforgeable. -/
def bodyRow (line : Text) : Text := if strip line = [] then [] else bodyIndent ++ oneLine line

def bodyRows (lines : List Text) : List Text := lines.map bodyRow

def marker (entry : HistoryEntry) : Text :=
  fill historyBodyTruncated
    [.ofText (oneLine entry.shortSha), .ofCount entry.bodyShown, .ofCount entry.bodyTotal]

def markerRows (entry : HistoryEntry) : List Text :=
  if entry.bodyShown < entry.bodyTotal then [rowIndent ++ marker entry] else []

def headerRow (entry : HistoryEntry) : Text :=
  rowIndent ++ oneLine entry.shortSha ++ "  ".toList ++ oneLine entry.authored ++ "  ".toList ++
    oneLine entry.subject

/-- The row of an entry, its body rows, and the marker of a cut body. -/
def historyEntryText (entry : HistoryEntry) : Text :=
  joinLines (headerRow entry :: (bodyRows entry.bodyLines ++ markerRows entry)) ++ ['\n']

/-- The entry of a commit, its body without the blank lines around it. -/
def entry (commit : Git.History.Commit) : HistoryEntry :=
  let blank := fun line => decide (strip line = [])
  let bodyLines := ((splitlines commit.body false).dropWhile blank).rdropWhile blank
  { sha := commit.sha
    authored := commit.authored
    subject := commit.subject
    bodyLines
    bodyTotal := bodyLines.length }

def entryTokens (entry : HistoryEntry) : Nat := chars4 (historyEntryText entry)

def header (entry : HistoryEntry) : Nat := entryTokens { entry with bodyLines := [], bodyTotal := 0 }

/-- The tokens of the first rows of a body, as they are printed. -/
def measured (entry : HistoryEntry) (kept : Nat) : Nat :=
  chars4 (joinLines (bodyRows (entry.bodyLines.take kept)))

def cutTo (entry : HistoryEntry) (kept : Nat) : HistoryEntry :=
  { entry with bodyLines := entry.bodyLines.take kept }

/-- The header row always renders, so a body may go to nothing. -/
def shorten (share : Nat) (entry : HistoryEntry) : HistoryEntry :=
  if entry.bodyLines = [] then entry
  else cutTo entry (keptLines 0 entry.bodyLines.length (header entry) share (measured entry))

def cutting : Cutting HistoryEntry where
  tokens := entryTokens
  shorten := shorten
  fewest entry := cutTo entry 0
  Marked entry := markerRows entry ≠ []
  Short entry := entry.bodyShown < entry.bodyTotal

/-- Entries that fit an equal share stay whole; the others are cut to the last share. -/
def fit (entries : List HistoryEntry) (budget : Nat) : Option (List HistoryEntry) :=
  fitItems cutting entries budget

/-! ## Entries that a log gives -/

/-- An entry of a commit that git printed within its output cap. -/
structure HistoryEntry.Listed (entry : HistoryEntry) : Prop where
  sha : Git.History.isFullSha entry.sha = true
  total : entry.bodyTotal = entry.bodyShown
  bounded : entry.bodyTotal ≤ Git.History.maxHistoryOutputBytes

abbrev ListedEntry := { entry : HistoryEntry // entry.Listed }

variable {share kept : Nat} {entry : HistoryEntry}

theorem length_splitlines_go_le (keepends : Bool) (line text : Text) :
    (splitlines.go keepends line text).length ≤ text.length + 1 ∧
      (line = [] → (splitlines.go keepends line text).length ≤ text.length) := by
  fun_induction splitlines.go keepends line text with
  | case1 line hne => exact ⟨le_refl _, fun hnil => absurd hnil hne⟩
  | case2 line hempty => exact ⟨Nat.zero_le _, fun _ => le_refl _⟩
  | case3 line rest ih | case4 line c rest hcrlf hbreak ih =>
    have hrest := ih.2 rfl
    simp only [List.length_cons]
    omega
  | case5 line c rest hcrlf hbreak ih =>
    have hrest := ih.1
    simp only [List.length_cons]
    omega

/-- No text has more lines than characters. -/
theorem length_splitlines_le (text : Text) (keepends : Bool) :
    (splitlines text keepends).length ≤ text.length :=
  (length_splitlines_go_le keepends [] text).2 rfl

/-- What a log within the cap gives is listed. -/
theorem listed_of_parseLog {text : Text} {capped : Bool} {log : List Git.History.Commit}
    (h : Git.History.parseLog text capped = .ok log)
    (hcap : text.length ≤ Git.History.maxHistoryOutputBytes) :
    ∀ commit ∈ log, (History.entry commit).Listed := by
  intro commit hcommit
  obtain ⟨hsha, hbody⟩ := Git.History.mem_parseLog h commit hcommit
  refine ⟨hsha, rfl, le_trans ?_ hcap⟩
  calc (((splitlines commit.body false).dropWhile _).rdropWhile _).length
      ≤ ((splitlines commit.body false).dropWhile _).length := (List.rdropWhile_prefix _ _).length_le
    _ ≤ (splitlines commit.body false).length := (List.dropWhile_sublist _).length_le
    _ ≤ commit.body.length := length_splitlines_le _ _
    _ ≤ text.length := hbody

theorem mem_fullSha {sha : Text} (h : Git.History.isFullSha sha = true) {c : Char} (hc : c ∈ sha) :
    (!isUnsafe c) = true ∧ c.toNat < 128 := by
  have hhex := List.all_eq_true.mp (Bool.and_eq_true_iff.mp h).2 c hc
  simp only [Bool.or_eq_true, Bool.and_eq_true, decide_eq_true_eq, Char.le_def,
    UInt32.le_iff_toNat_le] at hhex
  have hrange : 48 ≤ c.toNat ∧ c.toNat ≤ 102 := by
    rcases hhex with ⟨hlow, hhigh⟩ | ⟨hlow, hhigh⟩
    · exact ⟨hlow, hhigh.trans (by decide)⟩
    · exact ⟨le_trans (by decide) hlow, hhigh⟩
  refine ⟨?_, by omega⟩
  simp only [isUnsafe, Bool.not_eq_true', Bool.or_eq_false_iff, Bool.and_eq_false_iff,
    decide_eq_false_iff_not]
  omega

theorem length_fullSha {sha : Text} (h : Git.History.isFullSha sha = true) :
    shortShaLength ≤ sha.length := by
  rw [Git.History.isFullSha, Bool.and_eq_true, Bool.or_eq_true] at h
  rcases h.1 with hlength | hlength
  · exact le_trans (by decide) (of_decide_eq_true hlength).ge
  · exact le_trans (by decide) (of_decide_eq_true hlength).ge

theorem shortSha_eq (h : Git.History.isFullSha entry.sha = true) :
    entry.shortSha = entry.sha.take shortShaLength := by
  have hbytes : (utf8 (entry.sha.take shortShaLength)).length = shortShaLength := by
    rw [utf8_ascii fun c hc => (mem_fullSha h (List.mem_of_mem_take hc)).2, List.length_map,
      List.length_take, Nat.min_eq_left (length_fullSha h)]
  have hbetween := strBetween_append [] (entry.sha.take shortShaLength)
    (entry.sha.drop shortShaLength)
  rw [List.nil_append, List.take_append_drop, hbytes] at hbetween
  rw [HistoryEntry.shortSha]
  exact congrArg (Option.getD · entry.sha) hbetween

theorem length_shortSha (h : Git.History.isFullSha entry.sha = true) :
    (oneLine entry.shortSha).length = shortShaLength := by
  rw [shortSha_eq h, oneLine_of_safe fun c hc => (mem_fullSha h (List.mem_of_mem_take hc)).1,
    List.length_take, Nat.min_eq_left (length_fullSha h)]

theorem length_entryText (entry : HistoryEntry) : (historyEntryText entry).length =
    linesSize (headerRow entry :: (bodyRows entry.bodyLines ++ markerRows entry)) := by
  rw [← length_joinLines (List.cons_ne_nil _ _), historyEntryText, List.length_append]
  rfl

theorem measured_mono (entry : HistoryEntry) : Monotone (measured entry) := by
  have heq : measured entry =
      fun kept => chars4 (joinLines ((bodyRows entry.bodyLines).take kept)) := by
    funext kept
    rw [measured, bodyRows, bodyRows, List.map_take]
  exact heq ▸ monotone_chars4_joinLines_take _

theorem linesSize_markerRows_le (h : entry.Listed) (kept : Nat) :
    linesSize (markerRows (cutTo entry kept)) ≤ 114 := by
  rw [markerRows]
  split
  · next hshown =>
    have htotal : (Nat.toDigits 10 entry.bodyTotal).length ≤ 7 := by
      apply (Nat.length_toDigits_le_iff (by omega) (by omega)).mpr
      exact h.bounded.trans_lt (by decide)
    have hkept := length_toDigits_mono hshown.le
    have hsha := length_shortSha h.sha
    have hmarker : (marker (cutTo entry kept)).length = (oneLine entry.shortSha).length +
        (oneLine entry.shortSha).length + (Nat.toDigits 10 (cutTo entry kept).bodyShown).length +
          (Nat.toDigits 10 entry.bodyTotal).length + 81 := by
      simp [marker, fill, historyBodyTruncated, Piece.filled, Filled.ofCount, Filled.ofText,
        HistoryEntry.shortSha, cutTo]
      omega
    rw [linesSize_cons, linesSize_nil, List.length_append, hmarker, hsha]
    simp only [cutTo, rowIndent, shortShaLength] at hkept ⊢
    simp
    omega
  · exact Nat.zero_le _

/-- The lines that fit are printed within the share, with the header and the marker. -/
theorem entryTokens_cutTo_le (h : entry.Listed) (hpos : 0 < kept)
    (hkept : kept ≤ entry.bodyLines.length) (hfits : Fits (header entry) share (measured entry) kept) :
    entryTokens (cutTo entry kept) ≤ share := by
  have hrows : bodyRows (entry.bodyLines.take kept) ≠ [] := by
    have hlength : (bodyRows (entry.bodyLines.take kept)).length = kept := by
      rw [bodyRows, List.length_map, List.length_take, Nat.min_eq_left hkept]
    exact List.length_pos_iff.mp (by omega)
  have hheader : linesSize [headerRow entry] < 4 * (header entry + 1) := by
    have hlength := chars4_le_iff.mp (le_refl (header entry))
    rwa [length_entryText] at hlength
  have hmeasured : linesSize (bodyRows (entry.bodyLines.take kept)) ≤ 4 * (measured entry kept + 1) := by
    rw [← length_joinLines hrows]
    exact chars4_le_iff.mp (le_refl (measured entry kept))
  have hmarker := linesSize_markerRows_le h kept
  rw [entryTokens, chars4_le_iff, length_entryText]
  unfold Fits truncationMarkerTokens at hfits
  have hhead : headerRow (cutTo entry kept) = headerRow entry := rfl
  rw [hhead, linesSize_cons, linesSize_append]
  rw [linesSize_cons, linesSize_nil] at hheader
  change _ + (linesSize (bodyRows (entry.bodyLines.take kept)) + _) < _
  omega

theorem keeps_of_listed (h : entry.Listed) : cutting.Keeps share entry := by
  refine ⟨fun hfewest => ?_, fun hmarked => ?_⟩
  · change entryTokens (shorten share entry) ≤ share
    rw [shorten]
    split
    · next hnil =>
      have hsame : cutTo entry 0 = entry := by rw [cutTo, List.take_zero, ← hnil]
      exact hsame ▸ hfewest
    · obtain ⟨hfits, -⟩ := keptLines_largest (header entry) share _ (Nat.zero_le _)
        (measured_mono entry)
      obtain ⟨-, hle⟩ := keptLines_bounds (header entry) share (measured entry)
        (Nat.zero_le entry.bodyLines.length)
      obtain heq | hne := eq_or_ne
        (keptLines 0 entry.bodyLines.length (header entry) share (measured entry)) 0
      · rwa [heq]
      · exact entryTokens_cutTo_le h (Nat.pos_of_ne_zero hne) hle (hfits hne)
  · by_contra hshort
    exact hmarked (if_neg hshort)

end Agentless.App.History

/-!
## Which cuts keep to the budget

History measures the rows that it prints, and keeps to its budget. Expansion measures the lines as
the source has them, and prints them indented and escaped.
-/

namespace Agentless.App

/-- History's fit keeps its law for all entries of a log. -/
theorem History.fitKeeps (entries : List History.ListedEntry) (budget : Nat) :
    FitKeeps History.cutting (entries.map Subtype.val) budget := by
  refine fitKeeps_iff.mpr fun share entry ⟨cut, index, hfair, hindex, hentry⟩ => ?_
  rw [List.getElem?_map] at hentry
  obtain ⟨listed, -, rfl⟩ := Option.map_eq_some_iff.mp hentry
  exact History.keeps_of_listed listed.property

/-- Cards and entries are cut as the law says exactly when every card that a fair split cuts has two
lines or more, does not fit in whole, and prints the lines that fit within the share. -/
theorem fitBodies_keeps_iff (cards : List SymbolCard) (budget : Nat)
    (entries : List History.ListedEntry) (historyBudget : Nat) :
    FitKeeps Expand.cutting cards budget ∧
        FitKeeps History.cutting (entries.map Subtype.val) historyBudget ↔
      ∀ share card, CutAt Expand.cutting cards budget share card → Expand.Slack share card := by
  rw [and_iff_left (History.fitKeeps entries historyBudget), fitKeeps_iff]
  exact forall₂_congr fun share card => imp_congr_right fun _ => Expand.keeps_iff

/-! A card of many short lines: the indents of the lines that fit take more than the marker's
reserve. -/
namespace ShortLines

def card : SymbolCard where
  stableId := "py:a.py::f".toList
  startLine := 7
  endLine := 136
  kind := "function".toList
  signature := "def f()".toList
  parentClass := []
  body := joinLines (List.replicate 130 "7| x".toList)
  bodyShown := 130
  bodyTotal := 130

theorem fairSplit_alone {budget tokens : Nat} (h : budget < tokens) :
    FairSplit (Finset.range 1) (cost [tokens]) budget {0} budget where
  subset := by simp
  share_eq_zero hempty := absurd hempty (Finset.singleton_ne_empty 0)
  cost_le item hitem := by
    simp at hitem
  share_lt item hitem := by
    obtain rfl := Finset.mem_singleton.mp hitem
    exact h
  le_budget := by simp
  left item hitem := by simp

theorem fitBodies_over_share : ¬ FitKeeps Expand.cutting [card] 200 := by
  intro hkeeps
  have hcut : CutAt Expand.cutting [card] 200 200 card :=
    ⟨{0}, 0, fairSplit_alone (by decide +kernel), Finset.mem_singleton_self 0, rfl⟩
  have hover := (fitKeeps_iff.mp hkeeps 200 card hcut).tokens_le (by decide +kernel)
  exact absurd hover (by decide +kernel)

end ShortLines

end Agentless.App
