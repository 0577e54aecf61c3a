import Agentless.Facts.Values

/-!
# What a slice shows

The ranges of a slice are disjoint and in order. A header that a later range shows for the first
time lies behind the range before it: a symbol that opened earlier and reaches the later range
reaches the earlier one too, which showed its header. So the numbers of the rows rise.
-/

namespace Agentless.Facts

/-- The line is in the range. -/
def Holds (range : Nat × Nat) (line : Nat) : Prop := range.1 ≤ line ∧ line ≤ range.2

/-! ## Merged ranges -/

/-- The ranges so far, merged. -/
structure Merged (ranges merged : List (Nat × Nat)) : Prop where
  starts : ∀ range ∈ merged, ∃ given ∈ ranges, given.1 = range.1
  apart : merged.Pairwise fun range later => range.1 ≤ later.1 ∧ range.2 < later.1
  holds : ∀ line, (∃ range ∈ merged, Holds range line) ↔ ∃ range ∈ ranges, Holds range line

section Merge

variable {ranges front : List (Nat × Nat)} {last range : Nat × Nat}

theorem Merged.first (h : Merged ranges []) : Merged (ranges ++ [range]) [range] := by
  refine ⟨?_, List.pairwise_singleton _ _, fun line => ?_⟩
  · intro held hheld
    exact ⟨range, List.mem_append_right _ List.mem_cons_self, by rw [List.mem_singleton.mp hheld]⟩
  · have hline := h.holds line
    simp only [List.mem_append, List.mem_singleton] at hline ⊢
    grind

/-- A range that starts inside the last one makes it longer. -/
theorem Merged.extend (h : Merged ranges (front ++ [last])) (hstart : last.1 ≤ range.1)
    (hinside : range.1 ≤ last.2) :
    Merged (ranges ++ [range]) (front ++ [(last.1, max last.2 range.2)]) := by
  obtain ⟨hstarts, hapart, hholds⟩ := h
  obtain ⟨hfront, -, hlast⟩ := List.pairwise_append.mp hapart
  refine ⟨?_, ?_, fun line => ?_⟩
  · intro held hheld
    have hgiven : ∃ given ∈ ranges, given.1 = held.1 := by
      rcases List.mem_append.mp hheld with hmem | hmem
      · exact hstarts held (List.mem_append_left _ hmem)
      · rw [List.mem_singleton.mp hmem]
        exact hstarts last (List.mem_append_right _ List.mem_cons_self)
    obtain ⟨given, hgiven, heq⟩ := hgiven
    exact ⟨given, List.mem_append_left _ hgiven, heq⟩
  · refine List.pairwise_append.mpr ⟨hfront, List.pairwise_singleton _ _, ?_⟩
    intro earlier hearlier later hmem
    rw [List.mem_singleton.mp hmem]
    exact hlast earlier hearlier last List.mem_cons_self
  · have hline := hholds line
    have hjoin : Holds (last.1, max last.2 range.2) line ↔ Holds last line ∨ Holds range line := by
      unfold Holds
      dsimp only
      omega
    simp only [List.mem_append, List.mem_singleton, or_and_right, exists_or, exists_eq_left]
      at hline ⊢
    rw [hjoin, ← hline, or_assoc]

/-- A range that starts behind the last one stands alone. -/
theorem Merged.push (h : Merged ranges (front ++ [last]))
    (hstart : ∀ held ∈ front ++ [last], held.1 ≤ range.1) (houtside : last.2 < range.1) :
    Merged (ranges ++ [range]) (front ++ [last] ++ [range]) := by
  obtain ⟨hstarts, hapart, hholds⟩ := h
  refine ⟨?_, ?_, fun line => ?_⟩
  · intro held hheld
    rcases List.mem_append.mp hheld with hmem | hmem
    · obtain ⟨given, hgiven, heq⟩ := hstarts held hmem
      exact ⟨given, List.mem_append_left _ hgiven, heq⟩
    · rw [List.mem_singleton.mp hmem]
      exact ⟨range, List.mem_append_right _ List.mem_cons_self, rfl⟩
  · refine List.pairwise_append.mpr ⟨hapart, List.pairwise_singleton _ _, ?_⟩
    intro earlier hearlier later hmem
    obtain rfl := List.mem_singleton.mp hmem
    refine ⟨hstart earlier hearlier, ?_⟩
    rcases List.mem_append.mp hearlier with hbefore | hbefore
    · have hgap := (List.pairwise_append.mp hapart).2.2 earlier hbefore last List.mem_cons_self
      have hlast := hstart last (List.mem_append_right _ List.mem_cons_self)
      omega
    · rw [List.mem_singleton.mp hbefore]
      exact houtside
  · have hline := hholds line
    generalize front ++ [last] = merged at hline ⊢
    simp only [List.mem_append, List.mem_singleton, or_and_right, exists_or, exists_eq_left]
    rw [hline]

end Merge

theorem Merged.next {ranges merged : List (Nat × Nat)} (h : Merged ranges merged)
    {range : Nat × Nat} (hlater : ∀ given ∈ ranges, given.1 ≤ range.1) :
    Merged (ranges ++ [range]) (mergeInterval merged range) := by
  have hstart : ∀ held ∈ merged, held.1 ≤ range.1 := by
    intro held hheld
    obtain ⟨given, hgiven, heq⟩ := h.starts held hheld
    exact heq ▸ hlater given hgiven
  rcases List.eq_nil_or_concat merged with rfl | ⟨front, last, rfl⟩
  · exact h.first
  · rw [List.concat_eq_append] at h hstart ⊢
    unfold mergeInterval
    rw [List.getLast?_concat]
    dsimp only
    split_ifs with hinside
    · rw [List.dropLast_concat]
      exact h.extend (hstart last (List.mem_append_right _ List.mem_cons_self)) hinside
    · exact h.push hstart (Nat.lt_of_not_le hinside)

theorem merged_foldl {ranges : List (Nat × Nat)}
    (hsorted : ranges.Pairwise fun range later => range.1 ≤ later.1) :
    Merged ranges (ranges.foldl mergeInterval []) := by
  induction ranges using List.reverseRecOn with
  | nil => exact ⟨by simp, .nil, by simp⟩
  | append_singleton ranges range ih =>
    obtain ⟨hbefore, -, hlater⟩ := List.pairwise_append.mp hsorted
    rw [List.foldl_concat]
    exact (ih hbefore).next fun given hgiven => hlater given hgiven range List.mem_cons_self

/-- The merged ranges are in order and apart, and they hold the lines of the given ones. -/
theorem merged_mergeIntervals (intervals : List (Nat × Nat)) :
    Merged intervals (mergeIntervals intervals) := by
  obtain ⟨hstarts, hapart, hholds⟩ := merged_foldl (List.pairwise_insertionSort
    (fun range other : Nat × Nat => range.1 ≤ other.1) intervals)
  simp only [List.mem_insertionSort] at hstarts hholds
  exact ⟨hstarts, hapart, hholds⟩

/-! ## Clipped ranges -/

/-- The lines that the ranges ask for. -/
def Requested (intervals : List (Nat × Nat)) (line : Nat) : Prop :=
  intervals = [] ∨ ∃ range ∈ intervals, Holds range line

/-- Ranges in order and apart that lie in the file. Only the one range of an empty file is
empty. -/
structure Clipped (total : Nat) (ranges : List (Nat × Nat)) : Prop where
  apart : ranges.Pairwise fun range later => range.2 < later.1
  first : ∀ range ∈ ranges, 1 ≤ range.1
  inside : ∀ range ∈ ranges, range.2 ≤ total
  filled : (∀ range ∈ ranges, range.1 ≤ range.2) ∨ ranges = [(1, 0)]

theorem clipped_clamp {intervals ranges : List (Nat × Nat)} {total : Nat}
    (h : clamp intervals total = .ok ranges) :
    Clipped total ranges ∧ ranges ≠ [] ∧ ∀ line, (∃ range ∈ ranges, Holds range line) ↔
      1 ≤ line ∧ line ≤ total ∧ Requested intervals line := by
  unfold clamp at h
  dsimp only at h
  split_ifs at h with hempty hnone
  · obtain rfl := Except.ok.inj h
    refine ⟨⟨List.pairwise_singleton _ _, by simp, by simp, ?_⟩, by simp, fun line => ?_⟩
    · rcases Nat.eq_zero_or_pos total with rfl | hpos
      · exact .inr rfl
      · simp only [List.mem_singleton, forall_eq]
        exact .inl hpos
    · simp [Holds, Requested, hempty]
  · obtain rfl := Except.ok.inj h
    have hmerged := merged_mergeIntervals intervals
    refine ⟨⟨?_, ?_, ?_, .inl ?_⟩, hnone, fun line => ?_⟩
    · refine List.Pairwise.filter _ (List.pairwise_map.mpr (hmerged.apart.imp ?_))
      intro range later hapart
      dsimp only
      omega
    · intro range hrange
      obtain ⟨given, -, rfl⟩ := List.mem_map.mp (List.mem_of_mem_filter hrange)
      exact Nat.le_max_right _ _
    · intro range hrange
      obtain ⟨given, -, rfl⟩ := List.mem_map.mp (List.mem_of_mem_filter hrange)
      exact Nat.min_le_right _ _
    · intro range hrange
      exact of_decide_eq_true (List.mem_filter.mp hrange).2
    · rw [Requested, or_iff_right hempty, ← hmerged.holds]
      simp only [List.mem_filter, List.mem_map, decide_eq_true_eq]
      constructor
      · rintro ⟨range, ⟨⟨given, hgiven, rfl⟩, hle⟩, hholds⟩
        unfold Holds at hholds
        dsimp only at hle hholds
        exact ⟨by omega, by omega, given, hgiven, by unfold Holds; omega⟩
      · rintro ⟨hpos, hin, given, hgiven, hholds⟩
        unfold Holds at hholds
        exact ⟨_, ⟨⟨given, hgiven, rfl⟩, by dsimp only; omega⟩, by unfold Holds; dsimp only; omega⟩

/-! ## Headers -/

section Headers

variable {lines : List Text} {symbols : List ScopeSymbol} {shown : List Nat}

/-- What was shown of the symbols so far. -/
structure Headed (lines : List Text) (shown : List Nat) (symbols : List ScopeSymbol)
    (state : List Nat × List Nat) : Prop where
  increasing : state.1.Pairwise (· < ·)
  mem : ∀ line, line ∈ state.1 ↔
    line ∉ shown ∧ line ≤ lines.length ∧ ∃ symbol ∈ symbols, symbol.nameLine = line
  shown : ∀ line, line ∈ state.2 ↔ line ∈ shown ∨ line ∈ state.1

theorem Headed.next {state : List Nat × List Nat} (h : Headed lines shown symbols state)
    {symbol : ScopeSymbol} (hlater : ∀ earlier ∈ symbols, earlier.nameLine ≤ symbol.nameLine) :
    Headed lines shown (symbols ++ [symbol]) (showHeader lines state symbol) := by
  obtain ⟨headers, seen⟩ := state
  obtain ⟨hincreasing, hmem, hshown⟩ := h
  dsimp only at hincreasing hmem hshown
  have hnew (line : Nat) : (∃ held ∈ symbols ++ [symbol], held.nameLine = line) ↔
      (∃ held ∈ symbols, held.nameLine = line) ∨ symbol.nameLine = line := by
    simp only [List.mem_append, List.mem_singleton, or_and_right, exists_or, exists_eq_left]
  unfold showHeader
  dsimp only
  split_ifs with hskip
  · simp only [Bool.or_eq_true, List.contains_iff_mem, decide_eq_true_eq, hshown] at hskip
    refine ⟨hincreasing, fun line => ?_, hshown⟩
    rw [hnew]
    grind
  · simp only [Bool.or_eq_true, List.contains_iff_mem, decide_eq_true_eq, hshown, not_or,
      not_lt] at hskip
    refine ⟨?_, fun line => ?_, fun line => ?_⟩
    · refine List.pairwise_append.mpr ⟨hincreasing, List.pairwise_singleton _ _, ?_⟩
      intro header hheader other hother
      obtain ⟨-, -, earlier, hearlier, rfl⟩ := (hmem header).mp hheader
      rw [List.mem_singleton.mp hother]
      refine lt_of_le_of_ne (hlater earlier hearlier) fun hsame => ?_
      exact hskip.1.2 (hsame ▸ hheader)
    · rw [hnew]
      simp only [List.mem_append, List.mem_singleton]
      grind
    · simp only [List.mem_append, List.mem_cons, List.not_mem_nil, or_false, hshown]
      grind

theorem headed_foldl (hsorted : symbols.Pairwise fun symbol later =>
    symbol.nameLine ≤ later.nameLine) :
    Headed lines shown symbols (symbols.foldl (showHeader lines) ([], shown)) := by
  induction symbols using List.reverseRecOn with
  | nil => exact ⟨.nil, by simp, by simp⟩
  | append_singleton symbols symbol ih =>
    obtain ⟨hbefore, -, hlater⟩ := List.pairwise_append.mp hsorted
    rw [List.foldl_concat]
    exact (ih hbefore).next fun earlier hearlier => hlater earlier hearlier symbol List.mem_cons_self

/-- The numbers of the rows, in order. -/
def numbers (rows : List Row) : List Nat := rows.filterMap Row.number?

theorem numbers_map_numbered (lines : List Text) (given : List Nat) :
    numbers (given.map (numbered lines)) = given := by
  unfold numbers
  rw [List.filterMap_map]
  exact List.filterMap_some

/-- A header line of a symbol that opens before the start of the range and reaches it. -/
def HeaderOf (symbols : List ScopeSymbol) (range : Nat × Nat) (line : Nat) : Prop :=
  ∃ symbol ∈ symbols, symbol.encloses range.1 = true ∧ symbol.nameLine = line

theorem scopeHeaders_spec (lines : List Text) (symbols : List ScopeSymbol) (range : Nat × Nat)
    (shown : List Nat) :
    ∃ headers : List Nat, headers.Pairwise (· < ·) ∧
      (∀ line, line ∈ headers ↔ line ∉ shown ∧ line ≤ lines.length ∧ HeaderOf symbols range line) ∧
      (∀ line, line ∈ (scopeHeaders lines symbols range.1 shown).2 ↔
        line ∈ shown ∨ line ∈ headers) ∧
      (scopeHeaders lines symbols range.1 shown).1 = headers.map (numbered lines) ++
        if headers.getLast?.any (· + 1 < range.1) then [Row.elision] else [] := by
  have hheaded := @headed_foldl lines ((symbols.filter (·.encloses range.1)).insertionSort
    fun symbol other => symbol.nameLine ≤ other.nameLine) shown
    (List.pairwise_insertionSort (fun symbol other : ScopeSymbol =>
      symbol.nameLine ≤ other.nameLine) _)
  refine ⟨_, hheaded.increasing, fun line => ?_, fun line => ?_, rfl⟩
  · rw [hheaded.mem]
    simp only [List.mem_insertionSort, List.mem_filter, HeaderOf, and_assoc]
  · exact hheaded.shown line

end Headers

/-! ## Ranges in order -/

section Ranges

variable {lines : List Text} {symbols : List ScopeSymbol} {done : List (Nat × Nat)}
  {state : Slicing} {range : Nat × Nat}

/-- A line of one of the ranges, or a header above one. -/
def Wanted (symbols : List ScopeSymbol) (ranges : List (Nat × Nat)) (line : Nat) : Prop :=
  ∃ range ∈ ranges, Holds range line ∨ HeaderOf symbols range line

/-- The rows of the ranges so far. -/
structure Sliced (lines : List Text) (symbols : List ScopeSymbol) (done : List (Nat × Nat))
    (state : Slicing) : Prop where
  increasing : (numbers state.rows).Pairwise (· < ·)
  bounded : ∀ line ∈ numbers state.rows, line ≤ state.coveredTo
  shown : ∀ line, line ∈ state.shown ↔ line ∈ numbers state.rows
  mem : ∀ line, line ∈ numbers state.rows ↔ Wanted symbols done line
  texts : ∀ number line, Row.numbered number line ∈ state.rows → 1 ≤ number ∧
    lines[number - 1]? = some line
  covered : state.coveredTo = (done.getLast?.map Prod.snd).getD 0

theorem sliced_start (lines : List Text) (symbols : List ScopeSymbol) :
    Sliced lines symbols [] ⟨[], [], 0⟩ :=
  ⟨.nil, by simp [numbers], by simp [numbers], by simp [numbers, Wanted], by simp, rfl⟩

/-- A range that can follow the ranges so far. -/
structure Follows (lines : List Text) (done : List (Nat × Nat)) (range : Nat × Nat) : Prop where
  behind : ∀ earlier ∈ done, earlier.1 ≤ range.1 ∧ earlier.2 < range.1
  inside : range.2 ≤ lines.length
  first : 1 ≤ range.1
  filled : range.1 ≤ range.2 + 1

theorem Sliced.header_behind (h : Sliced lines symbols done state) (hrange : Follows lines done range)
    (hnames : ∀ symbol ∈ symbols, 1 ≤ symbol.nameLine) {line : Nat}
    (hheader : HeaderOf symbols range line) (hnew : line ∉ state.shown) : state.coveredTo < line := by
  obtain ⟨symbol, hsymbol, hencloses, rfl⟩ := hheader
  rw [h.shown, h.mem] at hnew
  rw [h.covered]
  cases hlast : done.getLast? with
  | none => exact hnames symbol hsymbol
  | some last =>
    by_contra hle
    have hmem : last ∈ done := List.mem_of_getLast? hlast
    have hbehind := hrange.behind last hmem
    simp only [Option.map_some, Option.getD_some, not_lt] at hle
    refine hnew ⟨last, hmem, ?_⟩
    by_cases hstart : last.1 ≤ symbol.nameLine
    · exact .inl ⟨hstart, hle⟩
    · -- the symbol opened before the last range and reaches the next one
      refine .inr ⟨symbol, hsymbol, ?_, rfl⟩
      simp only [ScopeSymbol.encloses, Bool.and_eq_true, decide_eq_true_eq] at hencloses ⊢
      exact ⟨⟨hencloses.1.1, by omega⟩, by omega⟩

theorem Sliced.coveredTo_lt (h : Sliced lines symbols done state) (hrange : Follows lines done range) :
    state.coveredTo < range.1 := by
  rw [h.covered]
  cases hlast : done.getLast? with
  | none => exact hrange.first
  | some last => exact (hrange.behind last (List.mem_of_getLast? hlast)).2

theorem numbers_append (rows more : List Row) : numbers (rows ++ more) = numbers rows ++ numbers more :=
  List.filterMap_append

theorem numbers_gap (p : Prop) [Decidable p] : numbers (if p then [Row.elision] else []) = [] := by
  split_ifs <;> rfl

theorem mem_gap {p : Prop} [Decidable p] {number : Nat} {line : Text} :
    Row.numbered number line ∉ if p then [Row.elision] else [] := by
  split_ifs <;> simp

/-- The rows above the lines of one range: a gap, and the headers. -/
def aboveRows (lines : List Text) (symbols : List ScopeSymbol) (state : Slicing)
    (range : Nat × Nat) : List Row :=
  (if range.1 > state.coveredTo + 1 then [Row.elision] else []) ++
    (scopeHeaders lines symbols range.1 state.shown).1

theorem rows_sliceRange (lines : List Text) (symbols : List ScopeSymbol) (state : Slicing)
    (range : Nat × Nat) :
    (sliceRange lines symbols state range).rows = state.rows ++
      (aboveRows lines symbols state range ++
        (List.range' range.1 (range.2 + 1 - range.1)).map (numbered lines)) := by
  simp only [sliceRange, aboveRows, List.append_assoc]

/-- What stands above the lines of a range: the headers that were not shown before, all of them
behind the ranges so far, and a gap unless the range follows directly. -/
structure Above (symbols : List ScopeSymbol) (lines : List Text) (state : Slicing)
    (range : Nat × Nat) : Prop where
  increasing : (numbers (aboveRows lines symbols state range)).Pairwise (· < ·)
  bounds : ∀ line ∈ numbers (aboveRows lines symbols state range),
    state.coveredTo < line ∧ line < range.1
  mem : ∀ line, line ∈ numbers (aboveRows lines symbols state range) ↔
    line ∉ state.shown ∧ HeaderOf symbols range line
  texts : ∀ number line, Row.numbered number line ∈ aboveRows lines symbols state range →
    line = lines[number - 1]?.getD []
  shown : ∀ line, line ∈ (sliceRange lines symbols state range).shown ↔
    line ∈ state.shown ∨ line ∈ numbers (aboveRows lines symbols state range) ∨ Holds range line
  gap : Row.elision ∈ aboveRows lines symbols state range ↔ range.1 ≠ state.coveredTo + 1

theorem Sliced.above (h : Sliced lines symbols done state) (hrange : Follows lines done range)
    (hnames : ∀ symbol ∈ symbols, 1 ≤ symbol.nameLine) : Above symbols lines state range := by
  obtain ⟨headers, hincreasing, hmem, hshown, hrows⟩ :=
    scopeHeaders_spec lines symbols range state.shown
  have hinside {line : Nat} (hheader : HeaderOf symbols range line) : line < range.1 := by
    obtain ⟨symbol, -, hencloses, rfl⟩ := hheader
    simp only [ScopeSymbol.encloses, Bool.and_eq_true, decide_eq_true_eq] at hencloses
    exact hencloses.1.2
  have hheaders (line : Nat) : line ∈ headers ↔ line ∉ state.shown ∧ HeaderOf symbols range line := by
    rw [hmem]
    refine and_congr_right fun _ => and_iff_right_of_imp fun hheader => ?_
    have hlt := hinside hheader
    have := hrange.inside
    have := hrange.filled
    omega
  have hbounds : ∀ line ∈ headers, state.coveredTo < line ∧ line < range.1 := by
    intro line hline
    obtain ⟨hnew, hheader⟩ := (hheaders line).mp hline
    exact ⟨h.header_behind hrange hnames hheader hnew, hinside hheader⟩
  have hnumbers : numbers (aboveRows lines symbols state range) = headers := by
    rw [aboveRows, numbers_append, numbers_gap, List.nil_append, hrows, numbers_append, numbers_gap,
      List.append_nil, numbers_map_numbered]
  have hcovered := h.coveredTo_lt hrange
  constructor
  · rwa [hnumbers]
  · rwa [hnumbers]
  · rwa [hnumbers]
  · intro number line hnumbered
    rw [aboveRows, hrows] at hnumbered
    rcases List.mem_append.mp hnumbered with hgap | hnumbered
    · exact absurd hgap mem_gap
    · rcases List.mem_append.mp hnumbered with hheader | hgap
      · obtain ⟨header, -, heq⟩ := List.mem_map.mp hheader
        obtain ⟨rfl, rfl⟩ := Row.numbered.inj heq
        rfl
      · exact absurd hgap mem_gap
  · intro line
    rw [hnumbers]
    unfold sliceRange
    dsimp only
    rw [List.mem_append, hshown, List.mem_range'_1, or_assoc]
    have hcontent : range.1 ≤ line ∧ line < range.1 + (range.2 + 1 - range.1) ↔ Holds range line := by
      unfold Holds
      omega
    rw [hcontent]
  · rcases Nat.lt_or_ge (state.coveredTo + 1) range.1 with hlt | hge
    · simp only [aboveRows, gt_iff_lt, hlt, if_true, List.mem_append, List.mem_singleton, true_or,
        true_iff]
      omega
    · -- no line is left for a header
      have hnone : headers = [] := by
        refine List.eq_nil_iff_forall_not_mem.mpr fun line hline => ?_
        have := hbounds line hline
        omega
      have heq : range.1 = state.coveredTo + 1 := by
        omega
      rw [aboveRows, hrows, hnone]
      simp [heq]

theorem Sliced.next (h : Sliced lines symbols done state) (hrange : Follows lines done range)
    (hnames : ∀ symbol ∈ symbols, 1 ≤ symbol.nameLine) :
    Sliced lines symbols (done ++ [range]) (sliceRange lines symbols state range) := by
  have habove := h.above hrange hnames
  have hcovered := h.coveredTo_lt hrange
  have hfilled := hrange.filled
  have hnumbers : numbers (sliceRange lines symbols state range).rows = numbers state.rows ++
      (numbers (aboveRows lines symbols state range) ++
        List.range' range.1 (range.2 + 1 - range.1)) := by
    rw [rows_sliceRange, numbers_append, numbers_append, numbers_map_numbered]
  have hend : (sliceRange lines symbols state range).coveredTo = range.2 :=
    Nat.max_eq_right (by omega)
  have hcontent (line : Nat) : line ∈ List.range' range.1 (range.2 + 1 - range.1) ↔
      Holds range line := by
    rw [List.mem_range'_1]
    unfold Holds
    omega
  have hmem (line : Nat) : line ∈ numbers (sliceRange lines symbols state range).rows ↔
      line ∈ numbers state.rows ∨ line ∈ numbers (aboveRows lines symbols state range) ∨
        Holds range line := by
    rw [hnumbers, List.mem_append, List.mem_append, hcontent]
  constructor
  · rw [hnumbers, List.pairwise_append, List.pairwise_append]
    refine ⟨h.increasing, ⟨habove.increasing, List.pairwise_lt_range', ?_⟩, ?_⟩
    · intro header hheader line hline
      exact (habove.bounds header hheader).2.trans_le ((hcontent line).mp hline).1
    · intro earlier hearlier line hline
      have hle := h.bounded earlier hearlier
      rcases List.mem_append.mp hline with hheader | hline
      · exact hle.trans_lt (habove.bounds line hheader).1
      · exact (hle.trans_lt hcovered).trans_le ((hcontent line).mp hline).1
  · intro line hline
    rw [hend]
    rcases (hmem line).mp hline with hold | hheader | hholds
    · have := h.bounded line hold
      omega
    · have := (habove.bounds line hheader).2
      omega
    · exact hholds.2
  · intro line
    rw [habove.shown, hmem, h.shown]
  · intro line
    rw [hmem, habove.mem, h.mem, h.shown, h.mem]
    simp only [Wanted, List.mem_append, List.mem_singleton, or_and_right, exists_or, exists_eq_left]
    grind
  · intro number line hnumbered
    rw [rows_sliceRange, List.mem_append, List.mem_append] at hnumbered
    have htext (hpos : 1 ≤ number) (hle : number ≤ lines.length)
        (hline : line = lines[number - 1]?.getD []) : lines[number - 1]? = some line := by
      rw [hline, List.getElem?_eq_getElem (by omega), Option.getD_some]
    have hinside := hrange.inside
    have hfirst := hrange.first
    rcases hnumbered with hold | habove' | hnew
    · exact h.texts number line hold
    · have hnumber : number ∈ numbers (aboveRows lines symbols state range) :=
        List.mem_filterMap.mpr ⟨_, habove', rfl⟩
      have hbounds := habove.bounds number hnumber
      exact ⟨by omega, htext (by omega) (by omega) (habove.texts number line habove')⟩
    · obtain ⟨number', hmem', heq⟩ := List.mem_map.mp hnew
      obtain ⟨rfl, rfl⟩ := Row.numbered.inj heq
      obtain ⟨hge, hle⟩ := (hcontent number').mp hmem'
      exact ⟨by omega, htext (by omega) (by omega) rfl⟩
  · rw [hend, List.getLast?_concat]
    rfl

theorem Clipped.follows {rest : List (Nat × Nat)} {total : Nat} (htotal : total ≤ lines.length)
    (h : Clipped total (done ++ range :: rest)) : Follows lines done range := by
  obtain ⟨hapart, hfirst, hinside, hfilled⟩ := h
  have hmem : range ∈ done ++ range :: rest := List.mem_append_right _ List.mem_cons_self
  have hbehind : ∀ earlier ∈ done, earlier.2 < range.1 := fun earlier hearlier =>
    (List.pairwise_append.mp hapart).2.2 earlier hearlier range List.mem_cons_self
  refine ⟨fun earlier hearlier => ⟨?_, hbehind earlier hearlier⟩, (hinside range hmem).trans htotal,
    hfirst range hmem, ?_⟩
  · rcases hfilled with hfilled | hempty
    · have := hfilled earlier (List.mem_append_left _ hearlier)
      have := hbehind earlier hearlier
      omega
    · cases done with
      | nil => cases hearlier
      | cons => simp at hempty
  · rcases hfilled with hfilled | hempty
    · exact (hfilled range hmem).trans (Nat.le_succ _)
    · rw [hempty, List.mem_singleton] at hmem
      rw [hmem]

/-- The ranges of a file, one after the other. -/
theorem sliced_foldl {rest : List (Nat × Nat)} {total : Nat} (htotal : total ≤ lines.length)
    (hclipped : Clipped total (done ++ rest)) (hnames : ∀ symbol ∈ symbols, 1 ≤ symbol.nameLine) :
    Sliced lines symbols done (done.foldl (sliceRange lines symbols) ⟨[], [], 0⟩) := by
  induction done using List.reverseRecOn generalizing rest with
  | nil => exact sliced_start lines symbols
  | append_singleton done range ih =>
    rw [List.append_assoc] at hclipped
    rw [List.foldl_concat]
    exact (ih hclipped).next (hclipped.follows htotal) hnames

theorem rows_foldl (lines : List Text) (symbols : List ScopeSymbol) (ranges : List (Nat × Nat))
    (state : Slicing) :
    ∃ more, (ranges.foldl (sliceRange lines symbols) state).rows = state.rows ++ more := by
  induction ranges generalizing state with
  | nil => exact ⟨[], (List.append_nil _).symm⟩
  | cons range ranges ih =>
    obtain ⟨more, hmore⟩ := ih (sliceRange lines symbols state range)
    rw [List.foldl_cons, hmore, rows_sliceRange, List.append_assoc]
    exact ⟨_, rfl⟩

theorem content_eq_cons (lines : List Text) (h : range.1 ≤ range.2) :
    ∃ more, (List.range' range.1 (range.2 + 1 - range.1)).map (numbered lines) =
      numbered lines range.1 :: more := by
  obtain ⟨count, hcount⟩ : ∃ count, range.2 + 1 - range.1 = count + 1 := ⟨range.2 - range.1, by omega⟩
  rw [hcount, List.range'_succ]
  exact ⟨_, rfl⟩

theorem content_eq_concat (lines : List Text) (h : range.1 ≤ range.2) :
    ∃ front, (List.range' range.1 (range.2 + 1 - range.1)).map (numbered lines) =
      front ++ [numbered lines range.2] := by
  obtain ⟨count, hcount⟩ : ∃ count, range.2 + 1 - range.1 = count + 1 := ⟨range.2 - range.1, by omega⟩
  have hlast : range.1 + 1 * count = range.2 := by omega
  rw [hcount, List.range'_concat, List.map_append, hlast]
  exact ⟨_, rfl⟩

end Ranges

/-! ## The slice -/

section Slice

variable {content : Text} {intervals ranges : List (Nat × Nat)} {symbols : List ScopeSymbol}

theorem lineCount_le (content : Text) : lineCount content ≤ (splitLines content).length :=
  (Nat.min_le_left _ _).trans (Nat.sub_le _ _)

/-- Between the lines of two successive ranges a gap is marked unless they are adjacent. -/
theorem gap_between (hclipped : Clipped (lineCount content) ranges)
    (hnames : ∀ symbol ∈ symbols, 1 ≤ symbol.nameLine) {front back : List (Nat × Nat)}
    {range later : Nat × Nat} (hranges : ranges = front ++ range :: later :: back) :
    ∃ before between after,
      (ranges.foldl (sliceRange (splitLines content) symbols) ⟨[], [], 0⟩).rows =
        before ++ numbered (splitLines content) range.2 ::
          (between ++ numbered (splitLines content) later.1 :: after) ∧
      (Row.elision ∈ between ↔ later.1 ≠ range.2 + 1) := by
  have hfilled : ∀ held ∈ ranges, held.1 ≤ held.2 := by
    rcases hclipped.filled with hfilled | hempty
    · exact hfilled
    · rw [hempty] at hranges
      simp [List.cons_eq_append_iff] at hranges
  subst hranges
  have hsplit : front ++ range :: later :: back = front ++ [range] ++ later :: back := by simp
  have hlater : Follows (splitLines content) (front ++ [range]) later :=
    Clipped.follows (lineCount_le content) (hsplit ▸ hclipped)
  have hsliced := sliced_foldl (lineCount_le content) (hsplit ▸ hclipped) hnames
  have habove := hsliced.above hlater hnames
  obtain ⟨last, hlast⟩ := content_eq_concat (splitLines content)
    (hfilled range (List.mem_append_right _ List.mem_cons_self))
  obtain ⟨next, hnext⟩ := content_eq_cons (splitLines content) (hfilled later (by simp))
  have hcovered := hsliced.covered
  rw [List.getLast?_concat, List.foldl_concat] at hcovered
  rw [List.foldl_concat] at habove
  rw [List.foldl_append]
  generalize front.foldl (sliceRange (splitLines content) symbols) ⟨[], [], 0⟩ = state
    at hcovered habove ⊢
  obtain ⟨more, hmore⟩ := rows_foldl (splitLines content) symbols back
    (sliceRange (splitLines content) symbols (sliceRange (splitLines content) symbols state range)
      later)
  have hgap := habove.gap
  rw [hcovered] at hgap
  refine ⟨state.rows ++ (aboveRows (splitLines content) symbols state range ++ last), _, next ++ more,
    ?_, hgap⟩
  rw [List.foldl_cons, List.foldl_cons, hmore, rows_sliceRange _ _ (sliceRange _ _ _ _), hnext,
    rows_sliceRange, hlast]
  simp only [List.append_assoc, List.cons_append, List.nil_append]

/-- The last line covered is the number of a row, unless none is. -/
theorem coveredTo_mem (hclipped : Clipped (lineCount content) ranges)
    (hnames : ∀ symbol ∈ symbols, 1 ≤ symbol.nameLine) :
    let sliced := ranges.foldl (sliceRange (splitLines content) symbols) ⟨[], [], 0⟩
    (sliced.coveredTo = 0 ∨ sliced.coveredTo ∈ numbers sliced.rows) ∧
      sliced.rows.getLast? ≠ some .elision := by
  have hsliced := @sliced_foldl (splitLines content) symbols ranges [] _ (lineCount_le content)
    (by rwa [List.append_nil]) hnames
  rcases List.eq_nil_or_concat ranges with rfl | ⟨front, range, rfl⟩
  · exact ⟨.inl rfl, by simp⟩
  · rw [List.concat_eq_append] at hclipped hsliced ⊢
    have hcovered := hsliced.covered
    rw [List.getLast?_concat] at hcovered
    rcases hclipped.filled with hfilled | hempty
    · have hrange := hfilled range (List.mem_append_right _ List.mem_cons_self)
      refine ⟨.inr ?_, ?_⟩
      · rw [hsliced.mem, hcovered]
        exact ⟨range, List.mem_append_right _ List.mem_cons_self, .inl ⟨hrange, le_rfl⟩⟩
      · obtain ⟨last, hlast⟩ := content_eq_concat (splitLines content) hrange
        rw [List.foldl_concat, rows_sliceRange, hlast, ← List.append_assoc, ← List.append_assoc,
          List.getLast?_concat]
        simp [numbered]
    · rw [hempty] at hclipped hcovered ⊢
      have hfirst : range = (1, 0) := by
        cases front with
        | nil => simpa using hempty
        | cons => simp at hempty
      have habove := (sliced_start (splitLines content) symbols).above
        (Clipped.follows (lineCount_le content) hclipped) hnames
      refine ⟨.inl (by rw [hcovered, hfirst]; rfl), fun hlast => ?_⟩
      rw [List.foldl_cons, List.foldl_nil, rows_sliceRange] at hlast
      have hmem := List.mem_of_getLast? hlast
      simp only [List.nil_append, List.append_nil, List.range'_zero, List.map_nil, Nat.zero_add,
        Nat.sub_self] at hmem
      exact habove.gap.mp hmem rfl

/-- The lines of the rows are lines. -/
def Legible (rows : List Row) : Prop := ∀ number line, Row.numbered number line ∈ rows → '\n' ∉ line

theorem isDigit_toDigits (number : Nat) : ∀ c ∈ Nat.toDigits 10 number, c.isDigit = true :=
  fun _ => Nat.isDigit_of_mem_toDigits (by decide) (by decide)

/-- A row can be read back from its text. -/
theorem text_injective : Function.Injective Row.text := by
  have hnumbered (number : Nat) (line : Text) :
      (Row.numbered number line).text = Nat.toDigits 10 number ++ ('|' :: ' ' :: line) := by
    rw [Row.text, linePrefix, List.append_assoc]
    rfl
  have hmark (number : Nat) (line : Text) : (Row.numbered number line).text ≠ Row.elision.text := by
    intro h
    obtain ⟨c, digits, hdigits⟩ := List.exists_cons_of_ne_nil
      (Nat.toDigits_ne_nil : Nat.toDigits 10 number ≠ [])
    rw [hnumbered, hdigits] at h
    have hdigit := isDigit_toDigits number c (hdigits ▸ List.mem_cons_self)
    rw [(List.cons.inj h).1] at hdigit
    exact absurd hdigit (by decide)
  intro row row' h
  cases row with
  | numbered number line =>
    cases row' with
    | numbered number' line' =>
      rw [hnumbered, hnumbered] at h
      have hdigits (number : Nat) : ∀ c ∈ Nat.toDigits 10 number, (!c.isDigit) = false := by
        simpa using isDigit_toDigits number
      obtain ⟨hsame, hrest⟩ := Sequence.append_inj_of_head (hdigits number) (hdigits number')
        (by rfl) (by rfl) h
      have hnumber := congrArg (Nat.ofDigitChars 10 · 0) hsame
      simp only [Nat.ofDigitChars_ten_toDigits] at hnumber
      rw [hnumber, (List.cons.inj (List.cons.inj hrest).2).2]
    | elision => exact absurd h (hmark number line)
  | elision =>
    cases row' with
    | numbered number line => exact absurd h.symm (hmark number line)
    | elision => rfl

theorem Legible.unbroken {rows : List Row} (h : Legible rows) : Unbroken (rows.map Row.text) := by
  intro line hline
  obtain ⟨row, hrow, rfl⟩ := List.mem_map.mp hline
  cases row with
  | elision => decide
  | numbered number line =>
    rw [Row.text, linePrefix, List.mem_append, List.mem_append]
    rintro ((hdigit | hmark) | hline)
    · exact absurd (isDigit_toDigits number _ hdigit) (by decide)
    · exact absurd hmark (by decide)
    · exact h number line hrow hline

/-- The text of a slice shows its rows, and no others. -/
theorem joinLines_text_inj {rows others : List Row} (hrows : Legible rows) (hothers : Legible others)
    (h : joinLines (rows.map Row.text) = joinLines (others.map Row.text)) : rows = others := by
  have hempty {rows others : List Row} (hothers : Legible others) (hnil : rows = [])
      (h : joinLines (rows.map Row.text) = joinLines (others.map Row.text)) : others = [] := by
    subst hnil
    by_contra hne
    have hlines := congrArg splitLines h
    rw [splitLines_joinLines (by simpa using hne) hothers.unbroken] at hlines
    obtain ⟨row, rest, rfl⟩ := List.exists_cons_of_ne_nil hne
    have htext : row.text = [] := (List.cons.inj hlines).1.symm
    cases row <;> simp [Row.text, linePrefix] at htext
  by_cases hnil : rows = []
  · rw [hnil, hempty hothers hnil h]
  · have hne : others ≠ [] := fun hnil' => hnil (hempty hrows hnil' h.symm)
    have hlines := congrArg splitLines h
    rw [splitLines_joinLines (by simpa using hnil) hrows.unbroken,
      splitLines_joinLines (by simpa using hne) hothers.unbroken] at hlines
    exact text_injective.list_map hlines

/-- The rows of a slice that succeeds, with the ranges they come from. -/
theorem sliceLines_eq_ok {text : Text} (h : sliceLines content intervals symbols = .ok text) :
    ∃ ranges, clamp intervals (lineCount content) = .ok ranges ∧
      text = joinLines (((ranges.foldl (sliceRange (splitLines content) symbols) ⟨[], [], 0⟩).rows ++
        if (ranges.foldl (sliceRange (splitLines content) symbols) ⟨[], [], 0⟩).coveredTo <
          lineCount content then [Row.elision] else []).map Row.text) := by
  unfold sliceLines sliceRows at h
  dsimp only at h
  cases hclamp : clamp intervals (lineCount content) with
  | error refusal =>
    rw [hclamp] at h
    cases h
  | ok ranges =>
    rw [hclamp] at h
    exact ⟨ranges, rfl, (Except.ok.inj h).symm⟩

/-- A slice of a file that line numbers can count. The numbers of its rows rise, each row has its
line's text, and the rows are those of the requested lines in the file and of the headers of the
symbols that open before the start of a range and reach it, where the ranges are the merged ones
that have lines in the file. A gap is marked between the lines of two successive ranges unless they
are adjacent, and at the end when the file goes on. No other rows have the text. -/
theorem sliceLines_rows (content : Text) (intervals : List (Nat × Nat))
    (symbols : List ScopeSymbol) (hsize : fileLines content ≤ maxLine)
    (hnames : ∀ symbol ∈ symbols, 1 ≤ symbol.nameLine) (text : Text)
    (h : sliceLines content intervals symbols = .ok text) :
    ∃ ranges rows, clamp intervals (fileLines content) = .ok ranges ∧
      text = joinLines (rows.map Row.text) ∧
      (∀ others, Legible others → text = joinLines (others.map Row.text) → others = rows) ∧
      (numbers rows).Pairwise (· < ·) ∧
      (∀ number line, Row.numbered number line ∈ rows →
        1 ≤ number ∧ (splitLines content)[number - 1]? = some line) ∧
      (∀ line, line ∈ numbers rows ↔
        1 ≤ line ∧ line ≤ fileLines content ∧ Requested intervals line ∨
          ∃ range ∈ ranges, HeaderOf symbols range line) ∧
      (∀ front range later back, ranges = front ++ range :: later :: back →
        ∃ before between after,
          rows = before ++ numbered (splitLines content) range.2 ::
            (between ++ numbered (splitLines content) later.1 :: after) ∧
          (Row.elision ∈ between ↔ later.1 ≠ range.2 + 1)) ∧
      (rows.getLast? = some .elision ↔
        ∃ line, 1 ≤ line ∧ line ≤ fileLines content ∧ ∀ number ∈ numbers rows, number < line) := by
  have hcount : lineCount content = fileLines content := Nat.min_eq_left hsize
  obtain ⟨ranges, hclamp, rfl⟩ := sliceLines_eq_ok h
  obtain ⟨hclipped, -, hholds⟩ := clipped_clamp hclamp
  have hsliced := @sliced_foldl (splitLines content) symbols ranges [] _ (lineCount_le content)
    (by rwa [List.append_nil]) hnames
  obtain ⟨hcovered, hlast⟩ := coveredTo_mem hclipped hnames
  have hgaps := fun front range later back hranges =>
    @gap_between content ranges symbols hclipped hnames front back range later hranges
  generalize ranges.foldl (sliceRange (splitLines content) symbols) ⟨[], [], 0⟩ = sliced
    at hsliced hcovered hlast hgaps ⊢
  have hnumbers : numbers (sliced.rows ++
      if sliced.coveredTo < lineCount content then [Row.elision] else []) = numbers sliced.rows := by
    rw [numbers_append, numbers_gap, List.append_nil]
  have htexts : ∀ number line, Row.numbered number line ∈ sliced.rows ++
      (if sliced.coveredTo < lineCount content then [Row.elision] else []) →
      1 ≤ number ∧ (splitLines content)[number - 1]? = some line := by
    intro number line hmem
    rcases List.mem_append.mp hmem with hrow | hgap
    · exact hsliced.texts number line hrow
    · exact absurd hgap mem_gap
  have hlegible : Legible (sliced.rows ++
      if sliced.coveredTo < lineCount content then [Row.elision] else []) := fun number line hmem =>
    unbroken_splitLines content line (List.mem_of_getElem? (htexts number line hmem).2)
  refine ⟨ranges, _, hcount ▸ hclamp, rfl, fun others hothers heq =>
    joinLines_text_inj hothers hlegible heq.symm, ?_, htexts, ?_, ?_, ?_⟩
  · rw [hnumbers]
    exact hsliced.increasing
  · intro line
    rw [hnumbers, hsliced.mem, ← hcount, ← hholds]
    simp only [Wanted, and_or_left, exists_or]
  · intro front range later back hranges
    obtain ⟨before, between, after, heq, hgap⟩ := hgaps front range later back hranges
    rw [heq, List.append_assoc, List.cons_append, List.append_assoc, List.cons_append]
    exact ⟨before, between, _, rfl, hgap⟩
  · rw [hnumbers, ← hcount]
    split_ifs with hmore
    · rw [List.getLast?_concat]
      refine iff_of_true rfl ⟨sliced.coveredTo + 1, by omega, hmore, fun number hnumber => ?_⟩
      exact Nat.lt_succ_of_le (hsliced.bounded number hnumber)
    · rw [List.append_nil]
      refine iff_of_false hlast ?_
      rintro ⟨line, hpos, hle, hall⟩
      rcases hcovered with hzero | hmem
      · omega
      · have := hall _ hmem
        omega

end Slice

/-- A function, and two requested lines in it, of a file of six lines. -/
theorem sliceLines_rows_enclosed :
    ∃ ranges rows, clamp [(6, 6), (4, 4)] (fileLines "a\nb\nc\nd\ne\nf".toList) = .ok ranges ∧
      "...\n1| a\n...\n4| d\n...\n6| f".toList = joinLines (rows.map Row.text) ∧
      (numbers rows).Pairwise (· < ·) := by
  obtain ⟨ranges, rows, hclamp, htext, -, hincreasing, -⟩ := sliceLines_rows
    "a\nb\nc\nd\ne\nf".toList [(6, 6), (4, 4)] [⟨.function, 1, 6⟩] (by decide)
    (by decide) "...\n1| a\n...\n4| d\n...\n6| f".toList (by decide)
  exact ⟨ranges, rows, hclamp, htext, hincreasing⟩

/-! ## Ranges without lines, and lines without numbers -/

theorem joinLines_replicate (count : Nat) :
    joinLines (List.replicate (count + 1) []) = List.replicate count '\n' := by
  induction count with
  | zero => rfl
  | succ count ih =>
    rw [List.replicate_succ, joinLines_cons (by simp), ih]
    rfl

theorem fileLines_replicate (count : Nat) : fileLines (List.replicate count '\n') = count := by
  have hsplit : splitLines (List.replicate count '\n') = List.replicate (count + 1) [] := by
    rw [← joinLines_replicate]
    refine splitLines_joinLines (by simp) fun line hline => ?_
    rw [List.eq_of_mem_replicate hline]
    exact List.not_mem_nil
  have hending : List.replicate count '\n' = [] ∨
      (List.replicate count '\n').getLast? = some '\n' := by
    cases count with
    | zero => exact .inl rfl
    | succ count => exact .inr (by rw [List.replicate_succ', List.getLast?_concat])
  rw [fileLines, hsplit, if_pos hending, List.length_replicate, Nat.add_sub_cancel]

/-- The whole of a file that line numbers cannot count ends without a mark. -/
theorem sliceLines_uncounted {content : Text} (h : maxLine < fileLines content) :
    ∃ rows, sliceLines content [] [] = .ok (joinLines (rows.map Row.text)) ∧
      rows.getLast? ≠ some .elision ∧ ∀ number ∈ numbers rows, number < fileLines content := by
  have hcount : lineCount content = maxLine := Nat.min_eq_right h.le
  obtain ⟨hclipped, -⟩ := @clipped_clamp [] _ (lineCount content) rfl
  have hnames : ∀ symbol ∈ ([] : List ScopeSymbol), 1 ≤ symbol.nameLine := by simp
  have hsliced := @sliced_foldl (splitLines content) [] [(1, lineCount content)] [] _
    (lineCount_le content) hclipped hnames
  obtain ⟨-, hlast⟩ := coveredTo_mem hclipped hnames
  have hcovered := hsliced.covered
  refine ⟨([(1, lineCount content)].foldl (sliceRange (splitLines content) []) ⟨[], [], 0⟩).rows,
    ?_, hlast, fun number hnumber => ?_⟩
  · have hend : ([(1, lineCount content)].foldl (sliceRange (splitLines content) [])
        ⟨[], [], 0⟩).coveredTo = lineCount content := hcovered
    have hrows : sliceRows content [] [] = .ok (([(1, lineCount content)].foldl
        (sliceRange (splitLines content) []) ⟨[], [], 0⟩).rows ++ if ([(1, lineCount content)].foldl
          (sliceRange (splitLines content) []) ⟨[], [], 0⟩).coveredTo < lineCount content
          then [Row.elision] else []) := rfl
    rw [sliceLines, hrows, hend, if_neg (lt_irrefl _), List.append_nil]
    rfl
  · have hle := hsliced.bounded number hnumber
    rw [hcovered] at hle
    have : number ≤ lineCount content := hle
    omega

/-- A symbol that reaches only a range without lines has no header row, and a file that goes on
after the last line number has no mark. -/
theorem sliceLines_unmarked :
    (sliceLines "a\nb\nc\nd\ne\nf\ng\nh".toList [(5, 3), (7, 8)] [⟨.function, 2, 6⟩] =
        .ok "...\n7| g\n8| h".toList ∧
      (5, 3) ∈ mergeIntervals [(5, 3), (7, 8)] ∧ HeaderOf [⟨.function, 2, 6⟩] (5, 3) 2) ∧
    ∃ rows, sliceLines (List.replicate (maxLine + 1) '\n') [] [] =
        .ok (joinLines (rows.map Row.text)) ∧
      rows.getLast? ≠ some .elision ∧
      ∀ number ∈ numbers rows, number < fileLines (List.replicate (maxLine + 1) '\n') := by
  refine ⟨⟨by decide, by decide, ⟨.function, 2, 6⟩, ?_, ?_, rfl⟩,
    sliceLines_uncounted ?_⟩
  · exact List.mem_singleton_self _
  · decide
  · rw [fileLines_replicate]
    exact Nat.lt_succ_self _

end Agentless.Facts
