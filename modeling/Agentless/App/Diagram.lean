import Agentless.Library.AsciiText
import Agentless.Library.Find
import Agentless.Library.Ordinals

/-!
# Diagram labels

A label keeps an allowlist of characters, so the text of a repository stays inert in a chart. Every
repeat of a label carries an ascending ordinal. A label of the repository can itself look like a
numbered repeat, and then two labels of a chart are the same.
-/

namespace Agentless.App.Diagram

open Find Ordinals

def labelMaxChars : Nat := 60

def replacement : Char := '_'

def unnamedLabel : Text := "unnamed".toList

def allowed (c : Char) : Bool := c.isAlphanum || " ._-/".toList.contains c

/-- Each run of characters outside the allowlist becomes one underscore. -/
def replaceRuns (inRun : Bool) : Text → Text
  | [] => []
  | c :: text =>
    if allowed c then c :: replaceRuns false text
    else if inRun then replaceRuns true text
    else replacement :: replaceRuns true text

/-- Runs of `repeated` become one, after what is collapsed before. -/
def collapse (repeated : Char) (collapsed : Text) : Text → Text
  | [] => collapsed
  | c :: text =>
    if c = repeated ∧ collapsed.getLast? = some repeated then collapse repeated collapsed text
    else collapse repeated (collapsed ++ [c]) text

/-- A long label is cut with three dots, at a byte. -/
def safeLabel (text : Text) : Option Text :=
  let collapsed := collapse ' ' [] (replaceRuns false text)
  let trimmed := (collapsed.dropWhile (· = ' ')).rdropWhile (· = ' ')
  if trimmed = [] then some unnamedLabel
  else if labelMaxChars < (utf8 trimmed).length then
    (strBetween trimmed 0 (labelMaxChars - 3)).map (· ++ "...".toList)
  else some trimmed

/-- The first of a label stays bare. -/
def numbered (repeats : Text × Nat) : Text :=
  if repeats.2 = 1 then repeats.1 else repeats.1 ++ ' ' :: Nat.toDigits 10 repeats.2

def distinctFrom (counts : Text → Nat) : List Text → List Text
  | [] => []
  | label :: labels =>
    let count := counts label + 1
    numbered (label, count) :: distinctFrom (Function.update counts label count) labels

/-- Every repeat of a label carries an ascending ordinal. -/
def distinct (labels : List Text) : List Text := distinctFrom (fun _ => 0) labels

/-! ## Safety -/

def Safe (label : Text) : Prop := ∀ c ∈ label, allowed c = true

theorem safe_replaceRuns {inRun : Bool} {text : Text} : Safe (replaceRuns inRun text) := by
  fun_induction replaceRuns inRun text with
  | case1 => exact List.forall_mem_nil _
  | case2 _ c text hc ih => exact List.forall_mem_cons.mpr ⟨hc, ih⟩
  | case3 _ _ _ ih => exact ih
  | case4 _ _ _ _ _ ih => exact List.forall_mem_cons.mpr ⟨by decide, ih⟩

theorem safe_collapse {repeated : Char} {collapsed text : Text} (h : Safe collapsed)
    (htext : Safe text) : Safe (collapse repeated collapsed text) := by
  induction text generalizing collapsed with
  | nil => exact h
  | cons c text ih =>
    obtain ⟨hc, hrest⟩ := List.forall_mem_cons.mp htext
    rw [collapse]
    split_ifs
    · exact ih h hrest
    · refine ih (fun d hd => ?_) hrest
      rcases List.mem_append.mp hd with hd | hd
      · exact h d hd
      · exact List.mem_singleton.mp hd ▸ hc

theorem ascii_of_allowed {c : Char} (h : allowed c = true) : c.toNat < 0x80 := by
  rcases Bool.or_eq_true_iff.mp h with h | h
  · simp only [Char.isAlphanum, Char.isAlpha, Char.isUpper, Char.isLower, Char.isDigit,
      Bool.or_eq_true, Bool.and_eq_true, decide_eq_true_eq, ge_iff_le,
      UInt32.le_iff_toNat_le] at h
    have hbound : c.val.toNat ≤ 122 := by
      rcases h with ((⟨-, h⟩ | ⟨-, h⟩) | ⟨-, h⟩) <;> exact h.trans (by decide)
    exact Nat.lt_of_le_of_lt hbound (by decide)
  · have hmem : c ∈ " ._-/".toList := by simpa using h
    fin_cases hmem <;> decide

/-- An allowed text has one byte for each character. -/
theorem length_utf8_of_safe {label : Text} (h : Safe label) :
    (utf8 label).length = label.length := by
  rw [utf8_ascii fun c hc => ascii_of_allowed (h c hc), List.length_map]

/-- So it can be cut at any character. -/
theorem strBetween_of_safe {label : Text} {count : Nat} (h : Safe label)
    (hcount : count ≤ label.length) : strBetween label 0 count = some (label.take count) := by
  have htake : Safe (label.take count) := fun c hc => h c (List.mem_of_mem_take hc)
  have hcut := strBetween_append [] (label.take count) (label.drop count)
  rw [length_utf8_of_safe htake, List.length_take, min_eq_left hcount] at hcut
  simpa using hcut

theorem safe_append {label more : Text} (h : Safe label) (hmore : Safe more) :
    Safe (label ++ more) := by
  intro c hc
  exact (List.mem_append.mp hc).elim (h c) (hmore c)

/-- The label of a text exists, since a cut is between characters. -/
theorem exists_safeLabel (text : Text) : ∃ label, safeLabel text = some label ∧ Safe label := by
  have hcollapsed : Safe (collapse ' ' [] (replaceRuns false text)) :=
    safe_collapse (List.forall_mem_nil _) safe_replaceRuns
  unfold safeLabel
  extract_lets collapsed trimmed
  have htrimmed : Safe trimmed := fun c hc =>
    hcollapsed c ((List.dropWhile_suffix _).subset ((List.rdropWhile_prefix _ _).subset hc))
  split_ifs with hempty hlong
  · exact ⟨unnamedLabel, rfl, List.all_eq_true.mp rfl⟩
  · rw [length_utf8_of_safe htrimmed] at hlong
    have hcut : labelMaxChars - 3 ≤ trimmed.length := (Nat.sub_le _ _).trans hlong.le
    rw [strBetween_of_safe htrimmed hcut]
    refine ⟨_, rfl, safe_append (fun c hc => htrimmed c (List.mem_of_mem_take hc)) ?_⟩
    exact List.all_eq_true.mp rfl
  · exact ⟨trimmed, rfl, htrimmed⟩

/-! ## Distinctness -/

theorem distinctFrom_eq {counts : Text → Nat} {labels : List Text} :
    distinctFrom counts labels = (ordinalsFrom counts labels).map numbered := by
  induction labels generalizing counts with
  | nil => rfl
  | cons label labels ih => rw [distinctFrom, ordinalsFrom, List.map_cons, ih]

theorem distinct_eq (labels : List Text) : distinct labels = (ordinals labels).map numbered :=
  distinctFrom_eq

theorem space_notMem_toDigits (n : Nat) : ' ' ∉ Nat.toDigits 10 n := by
  intro h
  exact absurd (Nat.isDigit_of_mem_toDigits (by decide) (by decide) h) (by decide)

/-- A name with an ordinal tells both. -/
theorem numbered_inj {label other : Text} {k l : Nat} (hk : k ≠ 1) (hl : l ≠ 1)
    (h : numbered (label, k) = numbered (other, l)) : label = other ∧ k = l := by
  rw [numbered, numbered, if_neg hk, if_neg hl] at h
  have hsplit := congrArg (rsplitOnce ' ') h
  rw [rsplitOnce_append (space_notMem_toDigits k), rsplitOnce_append (space_notMem_toDigits l)]
    at hsplit
  obtain ⟨hlabel, hdigits⟩ := Prod.mk.inj (Option.some.inj hsplit)
  have hvalue := congrArg (fun digits => Nat.ofDigitChars 10 digits 0) hdigits
  simp only [Nat.ofDigitChars_ten_toDigits] at hvalue
  exact ⟨hlabel, hvalue⟩

theorem numbered_one (label : Text) : numbered (label, 1) = label := rfl

/-- Two labels are the same exactly when a label looks like a repeat of another that there is. -/
theorem nodup_distinct_iff {labels : List Text} :
    (distinct labels).Nodup ↔
      ∀ label k, 1 < k → k ≤ labels.count label → numbered (label, k) ∉ labels := by
  rw [distinct_eq, nodup_map_ordinals]
  constructor
  · intro h label k hk hcount hmem
    have hbare := h (numbered (label, k)) 1 label k Nat.one_pos (List.count_pos_iff.mpr hmem)
      (Nat.zero_lt_of_lt hk) hcount (numbered_one _)
    exact absurd hbare.2 hk.ne
  · intro h x k y l hk hkx hl hly hname
    by_cases hone : k = 1
    · by_cases hother : l = 1
      · rw [hone, hother, numbered_one, numbered_one] at hname
        exact ⟨hname, hone.trans hother.symm⟩
      · -- the first of `x` is spelled like a repeat of `y`
        rw [hone, numbered_one] at hname
        refine absurd ?_ (h y l (by omega) hly)
        exact hname ▸ List.count_pos_iff.mp (by omega)
    · by_cases hother : l = 1
      · rw [hother, numbered_one] at hname
        refine absurd ?_ (h x k (by omega) hkx)
        exact hname ▸ List.count_pos_iff.mp (by omega)
      · exact numbered_inj hone hother hname

theorem safe_numbered {label : Text} (h : Safe label) (k : Nat) : Safe (numbered (label, k)) := by
  unfold numbered
  split_ifs
  · exact h
  · refine safe_append h (List.forall_mem_cons.mpr ⟨by decide, fun c hc => ?_⟩)
    have hdigit := Nat.isDigit_of_mem_toDigits (by decide) (by decide) hc
    simp [allowed, Char.isAlphanum, hdigit]

theorem exists_safeLabels (texts : List Text) :
    ∃ labels, texts.mapM safeLabel = some labels ∧ labels.length = texts.length ∧
      ∀ label ∈ labels, Safe label := by
  induction texts with
  | nil => exact ⟨[], rfl, rfl, List.forall_mem_nil _⟩
  | cons text texts ih =>
    obtain ⟨label, hlabel, hsafe⟩ := exists_safeLabel text
    obtain ⟨labels, hlabels, hlength, hall⟩ := ih
    refine ⟨label :: labels, ?_, congrArg (· + 1) hlength, List.forall_mem_cons.mpr ⟨hsafe, hall⟩⟩
    rw [List.mapM_cons, hlabel, hlabels]
    rfl

/-- The labels of texts are as many and safe, and they are distinct exactly when no label looks like
a repeat of another that there is. -/
theorem labels_distinct_iff (texts : List Text) :
    ∃ labels, texts.mapM safeLabel = some labels ∧ (distinct labels).length = texts.length ∧
      (∀ label ∈ distinct labels, Safe label) ∧
      ((distinct labels).Nodup ↔
        ∀ label k, 1 < k → k ≤ labels.count label → numbered (label, k) ∉ labels) := by
  obtain ⟨labels, hlabels, hlength, hall⟩ := exists_safeLabels texts
  refine ⟨labels, hlabels, ?_, fun label hlabel => ?_, nodup_distinct_iff⟩
  · have hsize := congrArg List.length (map_fst_ordinalsFrom (fun _ => 0) labels)
    rw [List.length_map] at hsize
    rw [distinct_eq, List.length_map, ordinals, hsize, hlength]
  · rw [distinct_eq] at hlabel
    obtain ⟨⟨bare, k⟩, hmem, rfl⟩ := List.mem_map.mp hlabel
    obtain ⟨hk, hcount⟩ := mem_ordinals.mp hmem
    exact safe_numbered (hall bare (List.count_pos_iff.mp (by omega))) k

/-- A path that ends like the second of two others has its label. -/
theorem labels_not_distinct :
    ["a 2".toList, "a".toList, "a".toList].mapM safeLabel =
        some ["a 2".toList, "a".toList, "a".toList] ∧
      ¬ (distinct ["a 2".toList, "a".toList, "a".toList]).Nodup := by
  decide

end Agentless.App.Diagram
