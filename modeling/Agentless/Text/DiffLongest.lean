import Agentless.Text.DiffGroups

/-!
# The longest match of a window

With fewer than 200 lines in `b` no line is popular, and each row of the table holds, for every line
of the window, the length of the longest run that ends there. So the match that is kept row by row is
the first of the longest ones, and there is nothing to extend.
-/

namespace Agentless.Text.Diff

open Std

variable {Line : Type} {a b : List Line} {span : Span}

/-- The block is longer than the other one, or as long and earlier in `a`, then in `b`. -/
def Block.Outranks (block other : Block) : Prop :=
  other.size < block.size ∨ other.size = block.size ∧
    (block.aAt < other.aAt ∨ block.aAt = other.aAt ∧ block.bAt ≤ other.bAt)

/-! ## Longest runs -/

/-- A run that is not part of a longer one with the same end. -/
structure LongestRun (a b : List Line) (span : Span) (i j size : Nat) : Prop extends
    RunEnd a b span i j size where
  longest : ∀ other, RunEnd a b span i j other → other ≤ size

theorem RunEnd.line_eq {i j size : Nat} (h : RunEnd a b span (i + 1) (j + 1) (size + 1)) :
    a[i]? = b[j]? := by
  have haLow := h.aLow
  have hbLow := h.bLow
  have hline := h.same size (by omega)
  rwa [show i + 1 - (size + 1) + size = i by omega,
    show j + 1 - (size + 1) + size = j by omega] at hline

theorem RunEnd.pred {i j size : Nat} (h : RunEnd a b span (i + 1) (j + 1) (size + 1)) :
    RunEnd a b span i j size := by
  obtain ⟨haLow, hbLow, hbHigh, hsame⟩ := h
  refine ⟨by omega, by omega, by omega, fun k hk => ?_⟩
  have hline := hsame k (by omega)
  rwa [show i + 1 - (size + 1) = i - size by omega,
    show j + 1 - (size + 1) = j - size by omega] at hline

/-- A row of the table: the longest run that ends at each line of the window. -/
structure ExactRow (a b : List Line) (span : Span) (i : Nat) (ends : TreeMap Nat Nat compare) :
    Prop where
  inside : ∀ j, span.bLow ≤ j → j < span.bHigh → LongestRun a b span i (j + 1) (ends[j]?.getD 0)
  outside : ∀ j, j < span.bLow ∨ span.bHigh ≤ j → ends[j]? = none

theorem runSize_eq (previous : TreeMap Nat Nat compare) (j : Nat) :
    runSize previous j = (if j = 0 then 0 else previous[j - 1]?.getD 0) + 1 := by
  unfold runSize
  split_ifs
  · rfl
  · cases previous[j - 1]? <;> rfl

theorem ExactRow.runSize {i j : Nat} {previous : TreeMap Nat Nat compare}
    (h : ExactRow a b span i previous) (hi : span.aLow ≤ i) (hj : Continues a b span i j) :
    LongestRun a b span (i + 1) (j + 1) (runSize previous j) := by
  obtain ⟨hlow, hhigh, hline⟩ := hj
  have hbefore : LongestRun a b span i j (if j = 0 then 0 else previous[j - 1]?.getD 0) := by
    by_cases hfirst : j = span.bLow
    · -- no run of the window ends before its first line
      have hnone : (if j = 0 then 0 else previous[j - 1]?.getD 0) = 0 := by
        split_ifs with hzero
        · rfl
        · rw [h.outside (j - 1) (by omega), Option.getD_none]
      rw [hnone]
      refine ⟨⟨hi, hlow, hhigh.le, nofun⟩, fun other hother => ?_⟩
      have := hother.bLow
      omega
    · have hinside := h.inside (j - 1) (by omega) (by omega)
      rw [Nat.sub_add_cancel (by omega)] at hinside
      rwa [if_neg (by omega)]
  rw [runSize_eq]
  refine ⟨hbefore.toRunEnd.succ hline hhigh, fun other hother => ?_⟩
  cases other with
  | zero => exact Nat.zero_le _
  | succ other => exact Nat.succ_le_succ (hbefore.longest other hother.pred)

/-! ## The lines of a window -/

theorem mem_dropWhile_of_le {indices : List Nat} {low j : Nat} (hj : j ∈ indices) (hlow : low ≤ j) :
    j ∈ indices.dropWhile (· < low) := by
  induction indices with
  | nil => cases hj
  | cons index indices ih =>
    rw [List.dropWhile_cons]
    split_ifs with hless
    · have hless : index < low := by simpa using hless
      exact ih ((List.mem_cons.mp hj).resolve_left (by omega))
    · exact hj

theorem mem_takeWhile_of_lt {indices : List Nat} (hsorted : indices.Pairwise (· < ·)) {high j : Nat}
    (hj : j ∈ indices) (hhigh : j < high) : j ∈ indices.takeWhile (· < high) := by
  induction indices with
  | nil => cases hj
  | cons index indices ih =>
    obtain ⟨hfirst, hrest⟩ := List.pairwise_cons.mp hsorted
    rcases List.mem_cons.mp hj with rfl | hj
    · simp [hhigh]
    · have hless : index < high := (hfirst j hj).trans hhigh
      rw [List.takeWhile_cons, if_pos (by simpa using hless)]
      exact List.mem_cons_of_mem _ (ih hrest hj)

variable [DecidableEq Line]

theorem mem_positions_iff (hb : b.length < 200) {line : Line} {j : Nat} :
    j ∈ positions b line ↔ b[j]? = some line := by
  refine ⟨mem_positions, fun hline => ?_⟩
  simp only [positions]
  rw [if_neg (by omega)]
  exact List.mem_map.mpr ⟨(line, j), List.mem_filter.mpr
    ⟨List.mk_mem_zipIdx_iff_getElem?.mpr hline, by simp⟩, rfl⟩

variable (a b) in
/-- The lines of the window that are equal to line `i` of `a`, as the source collects them. -/
def inSpan (i : Nat) (span : Span) : List Nat :=
  (((a[i]?.map (positions b)).getD []).dropWhile (· < span.bLow)).takeWhile (· < span.bHigh)

theorem mem_inSpan_iff (hb : b.length < 200) {i j : Nat} (hi : i < a.length) :
    j ∈ inSpan a b i span ↔ Continues a b span i j := by
  refine ⟨continues_of_mem, fun ⟨hlow, hhigh, hline⟩ => ?_⟩
  have hmem : j ∈ (a[i]?.map (positions b)).getD [] := by
    rw [List.getElem?_eq_getElem hi] at hline ⊢
    exact (mem_positions_iff hb).mpr hline.symm
  refine mem_takeWhile_of_lt ?_ (mem_dropWhile_of_le hmem hlow) hhigh
  refine List.Pairwise.sublist (List.dropWhile_sublist _) ?_
  rw [List.getElem?_eq_getElem hi]
  exact positions_sorted _

theorem inSpan_sorted (i : Nat) (span : Span) : (inSpan a b i span).Pairwise (· < ·) := by
  refine List.Pairwise.sublist ((List.takeWhile_sublist _).trans (List.dropWhile_sublist _)) ?_
  cases a[i]? with
  | none => exact .nil
  | some line => exact positions_sorted line

/-! ## One row -/

section Row

variable {i : Nat} {previous : TreeMap Nat Nat compare}

/-- What one line of the window adds to a row. -/
def addEnd (i : Nat) (previous : TreeMap Nat Nat compare)
    (found : TreeMap Nat Nat compare × Block) (j : Nat) : TreeMap Nat Nat compare × Block :=
  let size := runSize previous j
  (found.1.insert j size,
    if found.2.size < size then ⟨i + 1 - size, j + 1 - size, size⟩ else found.2)

theorem runsEndingAt_eq (i : Nat) (span : Span) (previous : TreeMap Nat Nat compare) :
    runsEndingAt a b i span previous =
      (inSpan a b i span).foldl (addEnd i previous) (∅, ⟨i, span.bLow, 0⟩) := rfl

omit [DecidableEq Line] in
theorem foldl_addEnd_ends (lines : List Nat) (low j : Nat) :
    (lines.foldl (addEnd i previous) (∅, ⟨i, low, 0⟩)).1[j]? =
      if j ∈ lines then some (runSize previous j) else none := by
  induction lines using List.reverseRecOn with
  | nil => simp
  | append_singleton lines last ih =>
    rw [List.foldl_append, List.foldl_cons, List.foldl_nil, addEnd, TreeMap.getElem?_insert]
    by_cases hlast : last = j
    · subst hlast
      simp
    · simp [ih, hlast, Ne.symm hlast]

/-- The first of the longest runs of a row, given the lines of the row in order. -/
structure RowBest (i low : Nat) (previous : TreeMap Nat Nat compare) (lines : List Nat)
    (best : Block) : Prop where
  found : best = ⟨i, low, 0⟩ ∨ ∃ j ∈ lines, best =
    ⟨i + 1 - runSize previous j, j + 1 - runSize previous j, runSize previous j⟩
  first : ∀ j ∈ lines, runSize previous j < best.size ∨
    runSize previous j = best.size ∧ best.bAt ≤ j + 1 - runSize previous j

omit [DecidableEq Line] in
theorem foldl_addEnd_best {lines : List Nat} (hsorted : lines.Pairwise (· < ·)) (low : Nat) :
    RowBest i low previous lines (lines.foldl (addEnd i previous) (∅, ⟨i, low, 0⟩)).2 := by
  induction lines using List.reverseRecOn with
  | nil => exact ⟨.inl rfl, nofun⟩
  | append_singleton lines last ih =>
    obtain ⟨hlines, -, hlast⟩ := List.pairwise_append.mp hsorted
    obtain ⟨hfound, hfirst⟩ := ih hlines
    rw [List.foldl_append, List.foldl_cons, List.foldl_nil]
    generalize lines.foldl (addEnd i previous) (∅, ⟨i, low, 0⟩) = before at hfound hfirst ⊢
    unfold addEnd
    dsimp only
    split_ifs with hlonger
    · refine ⟨.inr ⟨last, by simp, rfl⟩, fun j hj => ?_⟩
      obtain hj | hj := List.mem_append.mp hj
      · exact .inl (by have := hfirst j hj; dsimp only; omega)
      · rw [List.mem_singleton.mp hj]
        exact .inr ⟨rfl, le_rfl⟩
    · refine ⟨hfound.imp_right fun ⟨j, hj, heq⟩ => ⟨j, List.mem_append_left _ hj, heq⟩,
        fun j hj => ?_⟩
      obtain hj | hj := List.mem_append.mp hj
      · exact hfirst j hj
      · -- a run as long as the one that is kept ends later in `b`
        rw [List.mem_singleton.mp hj]
        obtain hlt | heq := (Nat.le_of_not_lt hlonger).lt_or_eq
        · exact .inl hlt
        · refine .inr ⟨heq, ?_⟩
          obtain hnone | ⟨earlier, hearlier, hbest⟩ := hfound
          · have hpos : 0 < runSize previous last := by rw [runSize_eq]; omega
            rw [hnone] at heq
            dsimp only at heq
            omega
          · have hbefore := hlast earlier hearlier last (List.mem_singleton_self _)
            rw [hbest] at heq ⊢
            dsimp only at heq ⊢
            omega

variable (hb : b.length < 200) (haHigh : span.aHigh ≤ a.length) (hi : span.aLow ≤ i)
  (hi' : i < span.aHigh) (hrow : ExactRow a b span i previous)

include hb haHigh hi hi' hrow

theorem ExactRow.next : ExactRow a b span (i + 1) (runsEndingAt a b i span previous).1 := by
  have hmem (j : Nat) : j ∈ inSpan a b i span ↔ Continues a b span i j :=
    mem_inSpan_iff hb (by omega)
  refine ⟨fun j hlow hhigh => ?_, fun j houtside => ?_⟩
  · rw [runsEndingAt_eq, foldl_addEnd_ends]
    split_ifs with hline
    · exact hrow.runSize hi ((hmem j).mp hline)
    · rw [Option.getD_none]
      refine ⟨⟨by omega, by omega, by omega, nofun⟩, fun other hother => ?_⟩
      cases other with
      | zero => exact le_rfl
      | succ other => exact absurd ((hmem j).mpr ⟨hlow, hhigh, hother.line_eq⟩) hline
  · rw [runsEndingAt_eq, foldl_addEnd_ends, if_neg]
    intro hline
    have hcontinues := (hmem j).mp hline
    have := hcontinues.1
    have := hcontinues.2.1
    omega

/-- The longest run of a row comes before every other one that ends there. -/
theorem runsEndingAt_outranks {block : Block} (hblock : block.Within a b span)
    (hpos : 0 < block.size) (hend : block.aAt + block.size = i + 1) :
    (runsEndingAt a b i span previous).2.Outranks block := by
  obtain ⟨hfound, hfirst⟩ : RowBest i span.bLow previous (inSpan a b i span)
      (runsEndingAt a b i span previous).2 :=
    foldl_addEnd_best (inSpan_sorted i span) span.bLow
  obtain ⟨haLow, -, hbLow, hbHigh, hsame⟩ := hblock
  have hrun : RunEnd a b span (i + 1) (block.bAt + block.size - 1 + 1) (block.size - 1 + 1) := by
    refine ⟨by omega, by omega, by omega, fun k hk => ?_⟩
    have hline := hsame k (by omega)
    rwa [show i + 1 - (block.size - 1 + 1) = block.aAt by omega,
      show block.bAt + block.size - 1 + 1 - (block.size - 1 + 1) = block.bAt by omega]
  have hcontinues : Continues a b span i (block.bAt + block.size - 1) :=
    ⟨by omega, by omega, hrun.line_eq⟩
  have hsize := (hrow.runSize hi hcontinues).longest _ hrun
  have hbest := hfirst _ ((mem_inSpan_iff hb (by omega)).mpr hcontinues)
  unfold Block.Outranks
  obtain hnone | ⟨j, -, heq⟩ := hfound
  · rw [hnone] at hbest
    dsimp only at hbest
    omega
  · have haAt : (runsEndingAt a b i span previous).2.aAt =
        i + 1 - (runsEndingAt a b i span previous).2.size := by rw [heq]
    omega

end Row

/-! ## The whole window -/

/-- The match that is kept after the rows before `i`. -/
structure BestBefore (a b : List Line) (span : Span) (i : Nat) (best : Block) : Prop where
  ends : best.aAt + best.size ≤ i
  outranks : ∀ block : Block, block.Within a b span →
    block.size = 0 ∨ block.aAt + block.size ≤ i → best.Outranks block

theorem BestBefore.next {i : Nat} {previous : TreeMap Nat Nat compare} {best : Block}
    (h : BestBefore a b span i best) (hb : b.length < 200) (haHigh : span.aHigh ≤ a.length)
    (hi : span.aLow ≤ i) (hi' : i < span.aHigh) (hrow : ExactRow a b span i previous) :
    BestBefore a b span (i + 1)
      (if best.size < (runsEndingAt a b i span previous).2.size then
        (runsEndingAt a b i span previous).2 else best) := by
  have hends : (runsEndingAt a b i span previous).2.aAt +
      (runsEndingAt a b i span previous).2.size ≤ i + 1 := by
    obtain ⟨hfound, -⟩ : RowBest i span.bLow previous (inSpan a b i span)
        (runsEndingAt a b i span previous).2 :=
      foldl_addEnd_best (inSpan_sorted i span) span.bLow
    obtain hnone | ⟨j, hj, heq⟩ := hfound
    · rw [hnone]
      exact Nat.le_succ i
    · have hrun := hrow.runSize hi (continues_of_mem hj)
      have := hrun.aLow
      rw [heq]
      dsimp only
      omega
  have hlongest {block : Block} (hblock : block.Within a b span) (hpos : 0 < block.size)
      (hend : block.aAt + block.size = i + 1) :=
    runsEndingAt_outranks hb haHigh hi hi' hrow hblock hpos hend
  generalize (runsEndingAt a b i span previous).2 = longest at hends hlongest ⊢
  have hbestEnds := h.ends
  refine ⟨by split_ifs <;> omega, fun block hblock hbefore => ?_⟩
  by_cases hnew : 0 < block.size ∧ block.aAt + block.size = i + 1
  · have hrow := hlongest hblock hnew.1 hnew.2
    split_ifs with hlonger
    · exact hrow
    · unfold Block.Outranks at hrow ⊢
      omega
  · have hold := h.outranks block hblock (by omega)
    split_ifs with hlonger
    · unfold Block.Outranks at hold ⊢
      omega
    · exact hold

theorem rows_best (hb : b.length < 200) (haHigh : span.aHigh ≤ a.length) (rows : Nat) {i : Nat}
    {best : Block} {ends : TreeMap Nat Nat compare} (hi : span.aLow ≤ i)
    (hrows : i + rows ≤ span.aHigh) (hrow : ExactRow a b span i ends)
    (hbest : BestBefore a b span i best) :
    BestBefore a b span (i + rows) ((List.range' i rows).foldl
      (fun (state : Block × TreeMap Nat Nat compare) i =>
        let (ends, longest) := runsEndingAt a b i span state.2
        (if state.1.size < longest.size then longest else state.1, ends))
      (best, ends)).1 := by
  induction rows generalizing i best ends with
  | zero => exact hbest
  | succ rows ih =>
    rw [List.range'_succ, List.foldl_cons, show i + (rows + 1) = i + 1 + rows by omega]
    exact ih (by omega) (by omega) (hrow.next hb haHigh hi (by omega))
      (hbest.next hb haHigh hi (by omega) hrow)

/-- The indexed match comes before every other run of the window. -/
theorem longestIndexedMatch_outranks (hb : b.length < 200) (haHigh : span.aHigh ≤ a.length)
    {block : Block} (hblock : block.Within a b span) :
    (longestIndexedMatch a b span).Outranks block := by
  have hempty : ExactRow a b span span.aLow ∅ := by
    refine ⟨fun j hlow hhigh => ?_, fun j _ => by simp⟩
    simp only [TreeMap.not_mem_emptyc, not_false_eq_true, TreeMap.getElem?_eq_none, Option.getD_none]
    refine ⟨⟨le_rfl, by omega, by omega, nofun⟩, fun other hother => ?_⟩
    have := hother.aLow
    omega
  have hstart : BestBefore a b span span.aLow ⟨span.aLow, span.bLow, 0⟩ := by
    refine ⟨le_rfl, fun other hother hbefore => ?_⟩
    have := hother.aLow
    have := hother.bLow
    unfold Block.Outranks
    dsimp only
    omega
  have hle := span.aLe
  have hbest := rows_best hb haHigh (span.aHigh - span.aLow) le_rfl (by omega) hempty hstart
  rw [Nat.add_sub_cancel' hle] at hbest
  exact hbest.outranks block hblock (.inr hblock.aHigh)

/-! ## There is nothing to extend -/

theorem extendBack_eq_or_lt (span : Span) (i j size : Nat) :
    extendBack a b span i j size = ⟨i, j, size⟩ ∨ size < (extendBack a b span i j size).size := by
  induction i generalizing j size with
  | zero => exact .inl rfl
  | succ i ih =>
    unfold extendBack
    split_ifs
    · obtain heq | hlt := ih (j - 1) (size + 1)
      · rw [heq]
        exact .inr (Nat.lt_succ_self size)
      · exact .inr (by omega)
    · exact .inl rfl

theorem extendForward_eq_or_lt (span : Span) (i j size : Nat) :
    extendForward a b span i j size = ⟨i, j, size⟩ ∨
      size < (extendForward a b span i j size).size := by
  fun_induction extendForward a b span i j size with
  | case1 size hextend ih =>
    obtain heq | hlt := ih
    · rw [heq]
      exact .inr (Nat.lt_succ_self size)
    · exact .inr (by omega)
  | case2 => exact .inl rfl

/-- The match of a window is a longest run of equal lines in it, the earliest in `a` and then in `b`
among the longest. -/
theorem longestMatch_outranks (hb : b.length < 200) (haHigh : span.aHigh ≤ a.length)
    {block : Block} (hblock : block.Within a b span) : (longestMatch a b span).Outranks block := by
  have hsame : longestMatch a b span = longestIndexedMatch a b span := by
    have hbest := longestIndexedMatch_outranks hb haHigh (longestMatch_within a b span)
    unfold Block.Outranks at hbest
    revert hbest
    unfold longestMatch
    dsimp only
    generalize longestIndexedMatch a b span = indexed
    intro hbest
    obtain hback | hback := extendBack_eq_or_lt (a := a) (b := b) span indexed.aAt indexed.bAt
      indexed.size
    · rw [hback] at hbest ⊢
      dsimp only at hbest ⊢
      obtain hforward | hforward := extendForward_eq_or_lt (a := a) (b := b) span indexed.aAt
        indexed.bAt indexed.size
      · exact hforward
      · omega
    · generalize extendBack a b span indexed.aAt indexed.bAt indexed.size = back at hbest hback
      obtain hforward | hforward := extendForward_eq_or_lt (a := a) (b := b) span back.aAt
        back.bAt back.size
      · rw [hforward] at hbest
        dsimp only at hbest
        omega
      · omega
  rw [hsame]
  exact longestIndexedMatch_outranks hb haHigh hblock

end Agentless.Text.Diff
