import Agentless.Library.Boundary

/-!
# The matching blocks of two sequences of lines

The blocks that the longest-match sequence matcher finds with automatic junk on, the opcodes and
groups made of them, and the unified diff. A line is only ever compared for equality, so the
matcher is over any type of lines.
-/

namespace Agentless.Text.Diff

open Std

/-- One matching block: the start in `a`, the start in `b`, and the length. -/
structure Block where
  aAt : Nat
  bAt : Nat
  size : Nat
deriving DecidableEq, Repr

/-- The equal lines a unified diff shows before and after each change. -/
def context : Nat := 3

structure Span where
  aLow : Nat
  aHigh : Nat
  bLow : Nat
  bHigh : Nat
  aLe : aLow ≤ aHigh
  bLe : bLow ≤ bHigh

section Matcher

variable {Line : Type} [DecidableEq Line] (a b : List Line)

/-- The positions of a line in `b`, in order, with none for a popular line. -/
def positions (line : Line) : List Nat :=
  let indices := (b.zipIdx.filter fun item => item.1 = line).map (·.2)
  if 200 ≤ b.length ∧ b.length / 100 + 1 < indices.length then [] else indices

/-- The length of the run that ends at line `j` of `b`, one more than that of the run before. -/
def runSize (previous : TreeMap Nat Nat compare) (j : Nat) : Nat :=
  (if j = 0 then none else previous[j - 1]?).elim 1 (· + 1)

/-- The length of each run that ends at line `i` of `a`, keyed by its end in `b`, and the first
of the longest of them. -/
def runsEndingAt (i : Nat) (span : Span) (previous : TreeMap Nat Nat compare) :
    TreeMap Nat Nat compare × Block :=
  let indices := (a[i]?.map (positions b)).getD []
  let inSpan := (indices.dropWhile (· < span.bLow)).takeWhile (· < span.bHigh)
  inSpan.foldl (fun (found : TreeMap Nat Nat compare × Block) j =>
    let size := runSize previous j
    (found.1.insert j size,
      if found.2.size < size then ⟨i + 1 - size, j + 1 - size, size⟩ else found.2))
    (∅, ⟨i, span.bLow, 0⟩)

/-- The longest run of equal lines whose lines are not popular, the earliest of equal runs. -/
def longestIndexedMatch (span : Span) : Block :=
  ((List.range' span.aLow (span.aHigh - span.aLow)).foldl
    (fun (state : Block × TreeMap Nat Nat compare) i =>
      let (ends, longest) := runsEndingAt a b i span state.2
      (if state.1.size < longest.size then longest else state.1, ends))
    (⟨span.aLow, span.bLow, 0⟩, ∅)).1

/-- Extends a match over the equal lines before it. -/
def extendBack (span : Span) (i j size : Nat) : Block :=
  match i with
  | 0 => ⟨0, j, size⟩
  | i + 1 =>
    if span.aLow < i + 1 ∧ span.bLow < j ∧ a[i]? = b[j - 1]? then
      extendBack span i (j - 1) (size + 1)
    else ⟨i + 1, j, size⟩

/-- Extends a match over the equal lines after it. -/
def extendForward (span : Span) (i j size : Nat) : Block :=
  if i + size < span.aHigh ∧ j + size < span.bHigh ∧ a[i + size]? = b[j + size]? then
    extendForward span i j (size + 1)
  else ⟨i, j, size⟩
termination_by span.aHigh - (i + size)

def longestMatch (span : Span) : Block :=
  let indexed := longestIndexedMatch a b span
  let back := extendBack a b span indexed.aAt indexed.bAt indexed.size
  extendForward a b span back.aAt back.bAt back.size

/-! ### What a match is -/

/-- The block lies in the span, and its lines are equal. -/
@[mk_iff]
structure Block.Within (span : Span) (block : Block) : Prop where
  aLow : span.aLow ≤ block.aAt
  aHigh : block.aAt + block.size ≤ span.aHigh
  bLow : span.bLow ≤ block.bAt
  bHigh : block.bAt + block.size ≤ span.bHigh
  same : ∀ k < block.size, a[block.aAt + k]? = b[block.bAt + k]?

variable {a b} {span : Span}

theorem mem_positions {line : Line} {j : Nat} (h : j ∈ positions b line) : b[j]? = some line := by
  have hindex : j ∈ (b.zipIdx.filter fun item => item.1 = line).map (·.2) := by
    simp only [positions] at h
    split at h
    · simp at h
    · exact h
  obtain ⟨item, hitem, rfl⟩ := List.mem_map.mp hindex
  obtain ⟨hitem, hline⟩ := List.mem_filter.mp hitem
  rw [← of_decide_eq_true hline]
  exact List.mk_mem_zipIdx_iff_getElem?.mp hitem

theorem extendBack_within {i j size : Nat} (h : Block.Within a b span ⟨i, j, size⟩) :
    Block.Within a b span (extendBack a b span i j size) := by
  induction i generalizing j size with
  | zero => exact h
  | succ i ih =>
    unfold extendBack
    split
    · rename_i hextend
      obtain ⟨hi, hj, hsame⟩ := hextend
      apply ih
      simp only [Block.within_iff] at h ⊢
      obtain ⟨haLow, haHigh, hbLow, hbHigh, hlines⟩ := h
      refine ⟨by omega, by omega, by omega, by omega, fun k hk => ?_⟩
      cases k with
      | zero => exact hsame
      | succ k =>
        have hline := hlines k (by omega)
        rwa [show i + 1 + k = i + (k + 1) by omega,
          show j + k = j - 1 + (k + 1) by omega] at hline
    · exact h

theorem extendForward_within {i j size : Nat} (h : Block.Within a b span ⟨i, j, size⟩) :
    Block.Within a b span (extendForward a b span i j size) := by
  fun_induction extendForward a b span i j size with
  | case1 size hextend ih =>
    obtain ⟨hi, hj, hsame⟩ := hextend
    apply ih
    simp only [Block.within_iff] at h ⊢
    obtain ⟨haLow, haHigh, hbLow, hbHigh, hlines⟩ := h
    refine ⟨haLow, by omega, hbLow, by omega, fun k hk => ?_⟩
    by_cases hlast : k = size
    · rwa [hlast]
    · exact hlines k (by omega)
  | case2 => exact h

/-- A run of `size` equal lines in the span that ends before line `i` of `a` and line `j` of
`b`. -/
structure RunEnd (a b : List Line) (span : Span) (i j size : Nat) : Prop where
  aLow : span.aLow + size ≤ i
  bLow : span.bLow + size ≤ j
  bHigh : j ≤ span.bHigh
  same : ∀ k < size, a[i - size + k]? = b[j - size + k]?

omit [DecidableEq Line] in
theorem RunEnd.within {i j size : Nat} (h : RunEnd a b span i j size) (hi : i ≤ span.aHigh) :
    Block.Within a b span ⟨i - size, j - size, size⟩ := by
  obtain ⟨haLow, hbLow, hbHigh, hsame⟩ := h
  rw [Block.within_iff]
  refine ⟨?_, ?_, ?_, ?_, hsame⟩ <;> dsimp only <;> omega

omit [DecidableEq Line] in
theorem RunEnd.succ {i j size : Nat} (h : RunEnd a b span i j size) (hline : a[i]? = b[j]?)
    (hj : j < span.bHigh) : RunEnd a b span (i + 1) (j + 1) (size + 1) := by
  obtain ⟨haLow, hbLow, hbHigh, hsame⟩ := h
  refine ⟨by omega, by omega, by omega, fun k hk => ?_⟩
  rw [show i + 1 - (size + 1) = i - size by omega, show j + 1 - (size + 1) = j - size by omega]
  by_cases hlast : k = size
  · rwa [hlast, show i - size + size = i by omega, show j - size + size = j by omega]
  · exact hsame k (by omega)

/-- Every entry of a row is the length of a run that ends at its line. -/
def Row (a b : List Line) (span : Span) (i : Nat) (ends : TreeMap Nat Nat compare) : Prop :=
  ∀ (j size : Nat), ends[j]? = some size → RunEnd a b span i (j + 1) size

theorem positions_sorted (line : Line) : (positions b line).Pairwise (· < ·) := by
  simp only [positions]
  split
  · exact List.Pairwise.nil
  · refine List.pairwise_map.mpr (List.Pairwise.filter _ ?_)
    rw [← List.pairwise_map (f := Prod.snd) (R := (· < ·)), List.zipIdx_map_snd]
    exact List.pairwise_lt_range'

/-- What is left of an increasing list after its small elements are dropped is not small. -/
theorem le_of_mem_dropWhile {indices : List Nat} (hsorted : indices.Pairwise (· < ·))
    {low j : Nat} (h : j ∈ indices.dropWhile (· < low)) : low ≤ j := by
  induction indices with
  | nil => simp at h
  | cons index indices ih =>
    obtain ⟨hfirst, hrest⟩ := List.pairwise_cons.mp hsorted
    rw [List.dropWhile_cons] at h
    split at h
    · exact ih hrest h
    · rename_i hlow
      have hle : low ≤ index := by simpa using hlow
      rcases List.mem_cons.mp h with rfl | hj
      · exact hle
      · exact hle.trans (hfirst j hj).le

/-- A line of `b` that continues the runs of a row: it is in the span and equal to line `i`. -/
def Continues (a b : List Line) (span : Span) (i j : Nat) : Prop :=
  span.bLow ≤ j ∧ j < span.bHigh ∧ a[i]? = b[j]?

theorem continues_of_mem {i j : Nat}
    (h : j ∈ (((a[i]?.map (positions b)).getD []).dropWhile (· < span.bLow)).takeWhile
      (· < span.bHigh)) : Continues a b span i j := by
  have hhigh := List.mem_takeWhile_imp h
  have hdrop := (List.takeWhile_prefix _).subset h
  cases hline : a[i]? with
  | none => simp [hline] at hdrop
  | some line =>
    simp only [hline, Option.map_some, Option.getD_some] at hdrop
    refine ⟨le_of_mem_dropWhile (positions_sorted line) hdrop, by simpa using hhigh, ?_⟩
    exact hline.trans (mem_positions ((List.dropWhile_suffix _).subset hdrop)).symm

/-- The run that ends at a continued line is one longer than the run before it. -/
theorem runEnd_of_continues {i j : Nat} {previous : TreeMap Nat Nat compare}
    (hi : span.aLow ≤ i) (hrow : Row a b span i previous) (hj : Continues a b span i j) :
    RunEnd a b span (i + 1) (j + 1) (runSize previous j) := by
  obtain ⟨hlow, hhigh, hline⟩ := hj
  have hone : RunEnd a b span (i + 1) (j + 1) 1 :=
    RunEnd.succ ⟨by omega, by omega, by omega, by omega⟩ hline hhigh
  unfold runSize
  split
  · exact hone
  · rename_i hzero
    cases hbefore : previous[j - 1]? with
    | none => exact hone
    | some size =>
      have hrun := hrow (j - 1) size hbefore
      rw [Nat.sub_add_cancel (by omega)] at hrun
      exact hrun.succ hline hhigh

theorem runsEndingAt_spec {i : Nat} {previous : TreeMap Nat Nat compare}
    (hi : span.aLow ≤ i) (hi' : i < span.aHigh)
    (hrow : Row a b span i previous) :
    Row a b span (i + 1) (runsEndingAt a b i span previous).1 ∧
      Block.Within a b span (runsEndingAt a b i span previous).2 := by
  refine List.foldlRecOn (motive := fun found : TreeMap Nat Nat compare × Block =>
    Row a b span (i + 1) found.1 ∧ Block.Within a b span found.2) _ _ ?_ ?_
  · refine ⟨fun j size h => by simp at h, ?_⟩
    rw [Block.within_iff]
    have := span.bLe
    refine ⟨?_, ?_, ?_, ?_, by simp⟩ <;> dsimp only <;> omega
  · rintro ⟨ends, longest⟩ ⟨hends, hlongest⟩ j hj
    have hrun := runEnd_of_continues hi hrow (continues_of_mem hj)
    refine ⟨fun j' size' h => ?_, ?_⟩
    · simp only [TreeMap.getElem?_insert, Std.compare_eq_iff_eq] at h
      split at h
      · subst j'
        obtain rfl := Option.some.inj h
        exact hrun
      · exact hends j' size' h
    · dsimp only
      split
      · exact hrun.within (by omega)
      · exact hlongest

theorem rows_within (rows : Nat) {i : Nat} {best : Block}
    {ends : TreeMap Nat Nat compare} (hi : span.aLow ≤ i) (hrows : i + rows ≤ span.aHigh)
    (hrow : Row a b span i ends) (hbest : Block.Within a b span best) :
    Block.Within a b span ((List.range' i rows).foldl
      (fun (state : Block × TreeMap Nat Nat compare) i =>
        let (ends, longest) := runsEndingAt a b i span state.2
        (if state.1.size < longest.size then longest else state.1, ends))
      (best, ends)).1 := by
  induction rows generalizing i best ends with
  | zero => exact hbest
  | succ rows ih =>
    obtain ⟨hends, hlongest⟩ := runsEndingAt_spec hi (by omega) hrow
    rw [List.range'_succ, List.foldl_cons]
    refine ih (by omega) (by omega) hends ?_
    dsimp only
    split
    · exact hlongest
    · exact hbest

variable (a b) in
theorem longestMatch_within (span : Span) : Block.Within a b span (longestMatch a b span) := by
  have hindexed : Block.Within a b span (longestIndexedMatch a b span) := by
    have := span.aLe
    refine rows_within _ (Nat.le_refl _) (by omega) (fun j size h => by simp at h) ?_
    rw [Block.within_iff]
    exact ⟨Nat.le_refl _, span.aLe, Nat.le_refl _, span.bLe, by simp⟩
  exact extendForward_within (extendBack_within hindexed)

/-- The part of a span before a match in it. -/
def Span.left {block : Block} (span : Span) (h : block.Within a b span) : Span where
  aLow := span.aLow
  aHigh := block.aAt
  bLow := span.bLow
  bHigh := block.bAt
  aLe := h.aLow
  bLe := h.bLow

/-- The part of a span after a match in it. -/
def Span.right {block : Block} (span : Span) (h : block.Within a b span) : Span where
  aLow := block.aAt + block.size
  aHigh := span.aHigh
  bLow := block.bAt + block.size
  bHigh := span.bHigh
  aLe := h.aHigh
  bLe := h.bHigh

variable (a b) in
/-- The spans that a match leaves to search, the right one on top. -/
def Span.split (span : Span) : List Span :=
  let block := longestMatch a b span
  (if block.aAt + block.size < span.aHigh ∧ block.bAt + block.size < span.bHigh then
    [span.right (longestMatch_within a b span)] else []) ++
  (if span.aLow < block.aAt ∧ span.bLow < block.bAt then
    [span.left (longestMatch_within a b span)] else [])

/-- What is left to search: each pending span, and twice its lines of `a`. -/
def weight (pending : List Span) : Nat :=
  (pending.map fun span => 2 * (span.aHigh - span.aLow) + 1).sum

theorem weight_split (span : Span) (h : (longestMatch a b span).size ≠ 0) :
    weight (span.split a b) < 2 * (span.aHigh - span.aLow) + 1 := by
  have hwithin := longestMatch_within a b span
  obtain ⟨haLow, haHigh, -, -, -⟩ := hwithin
  simp only [weight, Span.split]
  split <;> split <;> simp [Span.left, Span.right] <;> omega

variable (a b) in
/-- Splits each pending span at its longest match. -/
def blocksFrom (pending : List Span) (found : List Block) : List Block :=
  match pending with
  | [] => found
  | span :: pending =>
    if (longestMatch a b span).size = 0 then blocksFrom pending found
    else blocksFrom (span.split a b ++ pending) (found ++ [longestMatch a b span])
termination_by weight pending
decreasing_by
  · simp [weight]
  · rename_i hsize
    have := weight_split span hsize
    simp [weight] at this ⊢
    omega

variable (a b) in
def blocks : List Block :=
  blocksFrom a b [⟨0, a.length, 0, b.length, Nat.zero_le _, Nat.zero_le _⟩] []

/-- The order of the blocks as triples. -/
def Block.le (x y : Block) : Prop :=
  x.aAt < y.aAt ∨ x.aAt = y.aAt ∧ (x.bAt < y.bAt ∨ x.bAt = y.bAt ∧ x.size ≤ y.size)

instance : DecidableRel Block.le := fun _ _ => inferInstanceAs (Decidable (_ ∨ _))

/-- The blocks after `current`, where a block that starts at the end of the one before joins
it. -/
def mergeFrom (current : Block) : List Block → List Block
  | [] => if 0 < current.size then [current] else []
  | block :: found =>
    if current.aAt + current.size = block.aAt ∧ current.bAt + current.size = block.bAt then
      mergeFrom { current with size := current.size + block.size } found
    else if 0 < current.size then current :: mergeFrom block found
    else mergeFrom block found

def mergeAdjacent (found : List Block) : List Block := mergeFrom ⟨0, 0, 0⟩ found

variable (a b) in
/-- The blocks of equal lines that `a` and `b` share, in order, and an end block of size 0. -/
def matchingBlocks : List Block :=
  mergeAdjacent ((blocks a b).insertionSort Block.le) ++ [⟨a.length, b.length, 0⟩]

end Matcher

inductive Tag where
  | replace | delete | insert | equal
deriving DecidableEq, Repr

/-- The lines `aStart..aEnd` of `a` and `bStart..bEnd` of `b`, and how the first become the
second. -/
structure Opcode where
  tag : Tag
  aStart : Nat
  aEnd : Nat
  bStart : Nat
  bEnd : Nat
deriving DecidableEq, Repr

/-- The first `count` lines of an equal run. -/
def Opcode.head (code : Opcode) (count : Nat) : Opcode :=
  { code with
    aEnd := min code.aEnd (code.aStart + count)
    bEnd := min code.bEnd (code.bStart + count) }

/-- The last `count` lines of an equal run. -/
def Opcode.tail (code : Opcode) (count : Nat) : Opcode :=
  { code with
    aStart := max code.aStart (code.aEnd - count)
    bStart := max code.bStart (code.bEnd - count) }

def changeTag (removes adds : Bool) : Option Tag :=
  match removes, adds with
  | true, true => some .replace
  | true, false => some .delete
  | false, true => some .insert
  | false, false => none

/-- The opcodes of `blocks` after the lines before `i` and `j`. -/
def opcodesFrom (i j : Nat) : List Block → List Opcode
  | [] => []
  | block :: blocks =>
    let change := match changeTag (i < block.aAt) (j < block.bAt) with
      | some tag => [⟨tag, i, block.aAt, j, block.bAt⟩]
      | none => []
    let equal := if 0 < block.size then
      [⟨.equal, block.aAt, block.aAt + block.size, block.bAt, block.bAt + block.size⟩] else []
    change ++ equal ++ opcodesFrom (block.aAt + block.size) (block.bAt + block.size) blocks

section Groups

variable {Line : Type} [DecidableEq Line] (a b : List Line)

def opcodes : List Opcode := opcodesFrom 0 0 (matchingBlocks a b)

/-- The opcodes with at most `context` equal lines before the first change and after the last. -/
def trimmedEnds (codes : List Opcode) (context : Nat) : List Opcode :=
  let first := codes.modifyHead fun code => if code.tag = .equal then code.tail context else code
  first.modifyLast fun code => if code.tag = .equal then code.head context else code

/-- The groups of `codes` when `group` is open. -/
def groupFrom (context : Nat) (group : List Opcode) : List Opcode → List (List Opcode)
  | [] =>
    let onlyContext := group.length = 1 ∧ group.head?.all (fun code => code.tag = .equal)
    if group ≠ [] ∧ ¬ onlyContext then [group] else []
  | code :: codes =>
    if code.tag = .equal ∧ 2 * context < code.aEnd - code.aStart then
      (group ++ [code.head context]) :: groupFrom context [code.tail context] codes
    else groupFrom context (group ++ [code]) codes

/-- The groups of changes, each with at most `context` equal lines around it. -/
def groupedOpcodes (context : Nat) : List (List Opcode) :=
  groupFrom context [] (trimmedEnds (opcodes a b) context)

end Groups

/-- The decimal text of a number. -/
def decimal (n : Nat) : Text := Nat.toDigits 10 n

/-- A hunk range: the first line and the count, the count left out when it is 1. An empty range
names the line before it. -/
def hunkRange (start stop : Nat) : Text :=
  match stop - start with
  | 0 => decimal start ++ ",0".toList
  | 1 => decimal (start + 1)
  | count => decimal (start + 1) ++ ',' :: decimal count

def marked (mark : Char) (lines : List Text) : List Text := lines.map (mark :: ·)

def Opcode.lines (code : Opcode) (a b : List Text) : List Text :=
  if code.tag = .equal then marked ' ' (slice a code.aStart code.aEnd)
  else marked '-' (slice a code.aStart code.aEnd) ++ marked '+' (slice b code.bStart code.bEnd)

def hunkHeader (aStart aEnd bStart bEnd : Nat) : Text :=
  "@@ -".toList ++ hunkRange aStart aEnd ++ " +".toList ++ hunkRange bStart bEnd ++ " @@".toList

/-- The lines of a group. Its source reads the first and the last opcode, and no group is
empty. -/
def hunk (group : List Opcode) (a b : List Text) : List Text :=
  match group with
  | [] => []
  | first :: rest =>
    let last := (first :: rest).getLast (List.cons_ne_nil first rest)
    hunkHeader first.aStart last.aEnd first.bStart last.bEnd ::
      (first :: rest).flatMap fun code => code.lines a b

/-- The unified diff lines from `a` to `b`, with empty file names and no line ends. -/
def unifiedDiff (a b : List Text) : List Text :=
  let groups := groupedOpcodes a b context
  if groups.isEmpty then []
  else ["--- ".toList, "+++ ".toList] ++ groups.flatMap fun group => hunk group a b

end Agentless.Text.Diff
