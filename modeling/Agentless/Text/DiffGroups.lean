import Agentless.Library.Sequence
import Agentless.Text.Diff

/-!
# What the groups of a diff cover

1. The blocks that the matcher finds lie apart, so in order each starts after the one before.
2. The opcodes of ordered blocks are a chain from the start of both sides to their ends.
3. Trimming and grouping cut such a chain only inside runs of equal lines.
-/

namespace Agentless.Text.Diff

section Blocks

variable {Line : Type} [DecidableEq Line] {a b : List Line}

/-- One of the two spans ends before the other starts, on both sides. -/
def Span.Apart (x y : Span) : Prop :=
  x.aHigh ≤ y.aLow ∧ x.bHigh ≤ y.bLow ∨ y.aHigh ≤ x.aLow ∧ y.bHigh ≤ x.bLow

theorem Span.Apart.symm {x y : Span} (h : x.Apart y) : y.Apart x := Or.symm h

def Span.Inside (x y : Span) : Prop :=
  y.aLow ≤ x.aLow ∧ x.aHigh ≤ y.aHigh ∧ y.bLow ≤ x.bLow ∧ x.bHigh ≤ y.bHigh

theorem Span.Apart.inside {x y z : Span} (h : x.Apart y) (hz : z.Inside x) : z.Apart y := by
  unfold Span.Apart Span.Inside at *
  omega

/-- The lines that a block covers. -/
def Block.span (block : Block) : Span where
  aLow := block.aAt
  aHigh := block.aAt + block.size
  bLow := block.bAt
  bHigh := block.bAt + block.size
  aLe := Nat.le_add_right _ _
  bLe := Nat.le_add_right _ _

/-- The block lies in both sides, and its lines are equal. -/
structure Block.Matches (a b : List Line) (block : Block) : Prop where
  aHigh : block.aAt + block.size ≤ a.length
  bHigh : block.bAt + block.size ≤ b.length
  same : ∀ k < block.size, a[block.aAt + k]? = b[block.bAt + k]?

/-- The invariant of the work stack: what is pending and what was found lie apart, and every
block that was found matches. -/
structure Searched (a b : List Line) (pending : List Span) (found : List Block) : Prop where
  apart : (pending ++ found.map Block.span).Pairwise Span.Apart
  inside : ∀ span ∈ pending, span.aHigh ≤ a.length ∧ span.bHigh ≤ b.length
  matches_ : ∀ block ∈ found, 0 < block.size ∧ block.Matches a b

theorem Span.inside_of_mem_split {span part : Span} (h : part ∈ span.split a b) :
    part.Inside span := by
  obtain ⟨haLow, haHigh, hbLow, hbHigh, -⟩ := longestMatch_within a b span
  simp only [Span.split, List.mem_append] at h
  unfold Span.Inside
  rcases h with h | h <;> split at h <;> simp at h <;> subst h <;>
    simp only [Span.right, Span.left] <;> omega

/-- The match and the parts it leaves lie apart. -/
theorem Span.split_apart (span : Span) :
    ((longestMatch a b span).span :: span.split a b).Pairwise Span.Apart := by
  simp only [Span.split]
  split <;> split <;> simp [Span.Apart, Span.right, Span.left, Block.span]

omit [DecidableEq Line] in
theorem Block.Within.inside {span : Span} {block : Block} (h : block.Within a b span) :
    block.span.Inside span := ⟨h.aLow, h.aHigh, h.bLow, h.bHigh⟩

theorem Searched.step {span : Span} {pending : List Span} {found : List Block}
    (h : Searched a b (span :: pending) found) (hsize : (longestMatch a b span).size ≠ 0) :
    Searched a b (span.split a b ++ pending) (found ++ [longestMatch a b span]) := by
  obtain ⟨hpairs, hinside, hmatches⟩ := h
  have hwithin := longestMatch_within a b span
  obtain ⟨haHigh, hbHigh⟩ := hinside span List.mem_cons_self
  obtain ⟨hspan, hrest⟩ := List.pairwise_cons.mp hpairs
  have hparts : ∀ part ∈ (longestMatch a b span).span :: span.split a b, part.Inside span := by
    simp only [List.forall_mem_cons]
    exact ⟨hwithin.inside, fun part => Span.inside_of_mem_split⟩
  refine ⟨?_, ?_, ?_⟩
  · have hjoint := List.pairwise_append.mpr ⟨Span.split_apart (a := a) (b := b) span, hrest,
      fun part hpart other hother => (hspan other hother).inside (hparts part hpart)⟩
    refine (List.Perm.pairwise_iff (fun hxy => hxy.symm) ?_).mp hjoint
    rw [List.map_append, List.map_singleton, List.append_assoc, ← List.append_assoc pending,
      ← List.append_assoc]
    exact (List.perm_append_singleton _ _).symm
  · intro part hpart
    rcases List.mem_append.mp hpart with hpart | hpart
    · have := Span.inside_of_mem_split hpart
      unfold Span.Inside at this
      omega
    · exact hinside part (List.mem_cons_of_mem _ hpart)
  · intro block hblock
    rcases List.mem_append.mp hblock with hblock | hblock
    · exact hmatches block hblock
    · obtain rfl := List.mem_singleton.mp hblock
      exact ⟨by omega, hwithin.aHigh.trans haHigh, hwithin.bHigh.trans hbHigh, hwithin.same⟩

theorem Searched.blocksFrom {pending : List Span} {found : List Block}
    (h : Searched a b pending found) : Searched a b [] (blocksFrom a b pending found) := by
  fun_induction Diff.blocksFrom a b pending found with
  | case1 found => exact h
  | case2 found span pending hsize ih =>
    refine ih ⟨h.apart.sublist (by simp), fun part hpart => h.inside part (by simp [hpart]), ?_⟩
    exact h.matches_
  | case3 found span pending hsize ih => exact ih (h.step hsize)

theorem blocks_searched (a b : List Line) : Searched a b [] (blocks a b) := by
  refine Searched.blocksFrom ⟨by simp, ?_, by simp⟩
  simp

/-- Blocks after the lines before `i` and `j`, each after the one before, and all matching. -/
def Ordered (a b : List Line) (i j : Nat) : List Block → Prop
  | [] => True
  | block :: blocks => i ≤ block.aAt ∧ j ≤ block.bAt ∧ block.Matches a b ∧
      Ordered a b (block.aAt + block.size) (block.bAt + block.size) blocks

instance : Std.Total Block.le := ⟨fun x y => by unfold Block.le; omega⟩

instance : IsTrans Block Block.le := ⟨fun x y z => by unfold Block.le; omega⟩

omit [DecidableEq Line] in
theorem ordered_of_pairwise {blocks : List Block}
    (hmatches : ∀ block ∈ blocks, block.Matches a b)
    (hpairs : blocks.Pairwise fun x y => x.aAt + x.size ≤ y.aAt ∧ x.bAt + x.size ≤ y.bAt)
    {i j : Nat} (h : ∀ block ∈ blocks, i ≤ block.aAt ∧ j ≤ block.bAt) :
    Ordered a b i j blocks := by
  induction blocks generalizing i j with
  | nil => trivial
  | cons block blocks ih =>
    obtain ⟨hfirst, hrest⟩ := List.pairwise_cons.mp hpairs
    obtain ⟨hi, hj⟩ := h block List.mem_cons_self
    refine ⟨hi, hj, hmatches block List.mem_cons_self, ih ?_ hrest hfirst⟩
    exact fun other hother => hmatches other (List.mem_cons_of_mem _ hother)

theorem sorted_ordered (a b : List Line) :
    Ordered a b 0 0 ((blocks a b).insertionSort Block.le) := by
  obtain ⟨hpairs, -, hmatches⟩ := blocks_searched a b
  have hperm := List.perm_insertionSort Block.le (blocks a b)
  have hapart : ((blocks a b).insertionSort Block.le).Pairwise fun x y => x.span.Apart y.span := by
    refine (List.Perm.pairwise_iff (fun hxy => hxy.symm) hperm.symm).mp ?_
    exact List.pairwise_map.mp hpairs
  refine ordered_of_pairwise (fun block hblock => (hmatches block (hperm.mem_iff.mp hblock)).2) ?_
    (by simp)
  have hboth := hapart.and (List.pairwise_insertionSort Block.le (blocks a b))
  refine hboth.imp_of_mem fun {x y} hx hy hxy => ?_
  have hxsize := (hmatches x (hperm.mem_iff.mp hx)).1
  have hysize := (hmatches y (hperm.mem_iff.mp hy)).1
  obtain ⟨hxy, hle⟩ := hxy
  simp only [Span.Apart, Block.span, Block.le] at hxy hle
  omega

omit [DecidableEq Line] in
theorem mergeFrom_ordered {current : Block} {found : List Block} {i j : Nat}
    (h : Ordered a b i j (current :: found)) : Ordered a b i j (mergeFrom current found) := by
  induction found generalizing current i j with
  | nil =>
    unfold mergeFrom
    split
    · exact h
    · trivial
  | cons block found ih =>
    obtain ⟨hi, hj, hcurrent, hai, hbj, hblock, hrest⟩ := h
    unfold mergeFrom
    split
    · rename_i hadjacent
      obtain ⟨ha, hb⟩ := hadjacent
      refine ih ⟨hi, hj, ⟨?_, ?_, ?_⟩, ?_⟩
      · have := hblock.aHigh
        dsimp only
        omega
      · have := hblock.bHigh
        dsimp only
        omega
      · intro k hk
        dsimp only at hk ⊢
        by_cases hfirst : k < current.size
        · exact hcurrent.same k hfirst
        · have := hblock.same (k - current.size) (by omega)
          rwa [← ha, ← hb, show current.aAt + current.size + (k - current.size) = current.aAt + k by
            omega, show current.bAt + current.size + (k - current.size) = current.bAt + k by
            omega] at this
      · dsimp only
        rwa [← Nat.add_assoc, ← Nat.add_assoc, ha, hb]
    · split
      · exact ⟨hi, hj, hcurrent, ih ⟨hai, hbj, hblock, hrest⟩⟩
      · exact ih ⟨by omega, by omega, hblock, hrest⟩

omit [DecidableEq Line] in
theorem Ordered.snoc_end {blocks : List Block} {i j : Nat} (h : Ordered a b i j blocks)
    (hi : i ≤ a.length) (hj : j ≤ b.length) :
    Ordered a b i j (blocks ++ [⟨a.length, b.length, 0⟩]) := by
  induction blocks generalizing i j with
  | nil => exact ⟨hi, hj, ⟨Nat.le_refl _, Nat.le_refl _, by simp⟩, trivial⟩
  | cons block blocks ih =>
    obtain ⟨hbi, hbj, hblock, hrest⟩ := h
    exact ⟨hbi, hbj, hblock, ih hrest hblock.aHigh hblock.bHigh⟩

theorem matchingBlocks_ordered (a b : List Line) : Ordered a b 0 0 (matchingBlocks a b) := by
  refine Ordered.snoc_end (mergeFrom_ordered ?_) (Nat.zero_le _) (Nat.zero_le _)
  exact ⟨Nat.le_refl _, Nat.le_refl _, ⟨Nat.zero_le _, Nat.zero_le _, by simp⟩, sorted_ordered a b⟩

end Blocks

section Chains

variable {Line : Type} {a b : List Line}

/-- The lines from `i` and `j` to `i'` and `j'` are as many on both sides, and equal. -/
@[mk_iff]
structure Equal (a b : List Line) (i j i' j' : Nat) : Prop where
  aLe : i ≤ i'
  aHigh : i' ≤ a.length
  bHigh : j' ≤ b.length
  length : i' + j = i + j'
  same : ∀ k < i' - i, a[i + k]? = b[j + k]?

theorem Equal.trans {i j i' j' i'' j'' : Nat} (h : Equal a b i j i' j')
    (h' : Equal a b i' j' i'' j'') : Equal a b i j i'' j'' := by
  obtain ⟨hle, -, -, hlength, hsame⟩ := h
  obtain ⟨hle', ha, hb, hlength', hsame'⟩ := h'
  refine ⟨by omega, ha, hb, by omega, fun k hk => ?_⟩
  by_cases hfirst : k < i' - i
  · exact hsame k hfirst
  · have := hsame' (k - (i' - i)) (by omega)
    rwa [show i' + (k - (i' - i)) = i + k by omega,
      show j' + (k - (i' - i)) = j + k by omega] at this

/-- A run of equal lines inside a run of equal lines. -/
theorem Equal.part {i j i' j' m n m' n' : Nat} (h : Equal a b i j i' j') (hm : i ≤ m)
    (hle : m ≤ m') (hm' : m' ≤ i') (hn : m + j = i + n) (hn' : m' + j = i + n') :
    Equal a b m n m' n' := by
  obtain ⟨-, ha, hb, hlength, hsame⟩ := h
  refine ⟨hle, by omega, by omega, by omega, fun k hk => ?_⟩
  have := hsame (m - i + k) (by omega)
  rwa [show i + (m - i + k) = m + k by omega, show j + (m - i + k) = n + k by omega] at this

theorem Equal.slice_eq {i j i' j' : Nat} (h : Equal a b i j i' j') :
    slice a i i' = slice b j j' := by
  obtain ⟨hle, -, -, hlength, hsame⟩ := h
  have := slice_eq_slice hsame
  rwa [Nat.add_sub_cancel' hle, show j + (i' - i) = j' by omega] at this

/-- An equal opcode covers a run of equal lines, and any other opcode changes some line. -/
def Opcode.Fits (a b : List Line) (code : Opcode) : Prop :=
  if code.tag = .equal then
    code.aStart < code.aEnd ∧ Equal a b code.aStart code.bStart code.aEnd code.bEnd
  else
    code.aStart ≤ code.aEnd ∧ code.bStart ≤ code.bEnd ∧ code.aEnd ≤ a.length ∧
      code.bEnd ≤ b.length ∧ (code.aStart < code.aEnd ∨ code.bStart < code.bEnd)

theorem Opcode.Fits.bounds {code : Opcode} (h : code.Fits a b) :
    code.aStart ≤ code.aEnd ∧ code.bStart ≤ code.bEnd ∧ code.aEnd ≤ a.length ∧
      code.bEnd ≤ b.length := by
  unfold Opcode.Fits at h
  split at h
  · obtain ⟨-, hle, ha, hb, hlength, -⟩ := h
    omega
  · omega

/-- Opcodes that lead from the lines `i` and `j` to the lines `i'` and `j'`, each from where the
one before ends. -/
def Chain (a b : List Line) (i j : Nat) : List Opcode → Nat → Nat → Prop
  | [], i', j' => i = i' ∧ j = j'
  | code :: codes, i', j' => code.aStart = i ∧ code.bStart = j ∧ code.Fits a b ∧
      Chain a b code.aEnd code.bEnd codes i' j'

theorem chain_append {i j i' j' : Nat} {codes codes' : List Opcode} :
    Chain a b i j (codes ++ codes') i' j' ↔
      ∃ m n, Chain a b i j codes m n ∧ Chain a b m n codes' i' j' := by
  induction codes generalizing i j with
  | nil => simp [Chain]
  | cons code codes ih => simp [Chain, ih, and_assoc]

theorem chain_singleton {i j i' j' : Nat} {code : Opcode} :
    Chain a b i j [code] i' j' ↔
      code.aStart = i ∧ code.bStart = j ∧ code.Fits a b ∧ code.aEnd = i' ∧ code.bEnd = j' :=
  Iff.rfl

theorem Chain.bounds {i j i' j' : Nat} {codes : List Opcode} (h : Chain a b i j codes i' j') :
    i ≤ i' ∧ j ≤ j' := by
  induction codes generalizing i j with
  | nil => exact ⟨h.1.le, h.2.le⟩
  | cons code codes ih =>
    obtain ⟨rfl, rfl, hfits, hrest⟩ := h
    have := hfits.bounds
    have := ih hrest
    omega

theorem change_chain {i j : Nat} {block : Block} (hi : i ≤ block.aAt) (hj : j ≤ block.bAt)
    (h : block.Matches a b) :
    Chain a b i j (match changeTag (i < block.aAt) (j < block.bAt) with
      | some tag => [⟨tag, i, block.aAt, j, block.bAt⟩]
      | none => []) block.aAt block.bAt := by
  have haHigh := h.aHigh
  have hbHigh := h.bHigh
  by_cases ha : i < block.aAt <;> by_cases hb : j < block.bAt <;>
    simp [changeTag, ha, hb, Chain, Opcode.Fits] <;> omega

theorem equal_chain {block : Block} (h : block.Matches a b) :
    Chain a b block.aAt block.bAt (if 0 < block.size then
      [⟨.equal, block.aAt, block.aAt + block.size, block.bAt, block.bAt + block.size⟩] else [])
      (block.aAt + block.size) (block.bAt + block.size) := by
  split
  · rename_i hsize
    refine chain_singleton.mpr ⟨rfl, rfl, ?_, rfl, rfl⟩
    rw [Opcode.Fits, if_pos rfl, equal_iff]
    refine ⟨by dsimp only; omega, by dsimp only; omega, h.aHigh, h.bHigh, by dsimp only; omega, ?_⟩
    simpa using h.same
  · simp only [Chain]
    omega

theorem opcodesFrom_chain (last : Block) {blocks : List Block} {i j : Nat}
    (h : Ordered a b i j blocks) (hlast : blocks.getLast? = some last) :
    Chain a b i j (opcodesFrom i j blocks) (last.aAt + last.size) (last.bAt + last.size) := by
  induction blocks generalizing i j with
  | nil => simp at hlast
  | cons block blocks ih =>
    obtain ⟨hi, hj, hblock, hrest⟩ := h
    rw [opcodesFrom]
    refine chain_append.mpr ⟨block.aAt + block.size, block.bAt + block.size, ?_, ?_⟩
    · exact chain_append.mpr ⟨_, _, change_chain hi hj hblock, equal_chain hblock⟩
    · cases blocks with
      | nil =>
        obtain rfl : block = last := by simpa using hlast
        exact ⟨rfl, rfl⟩
      | cons next blocks => exact ih hrest (by simpa using hlast)

/-- The opcodes lead from the start of both sides to their ends. -/
theorem opcodes_chain [DecidableEq Line] (a b : List Line) :
    Chain a b 0 0 (opcodes a b) a.length b.length :=
  opcodesFrom_chain ⟨a.length, b.length, 0⟩ (matchingBlocks_ordered a b) (by simp [matchingBlocks])

/-! ### Cutting inside equal lines -/

theorem Opcode.fits_equal_iff {code : Opcode} (htag : code.tag = .equal) :
    code.Fits a b ↔
      code.aStart < code.aEnd ∧ Equal a b code.aStart code.bStart code.aEnd code.bEnd := by
  rw [Opcode.Fits, if_pos htag]

theorem Opcode.Fits.head {code : Opcode} (h : code.Fits a b) (htag : code.tag = .equal)
    {count : Nat} (hcount : 0 < count) :
    (code.head count).Fits a b ∧
      Equal a b (code.head count).aEnd (code.head count).bEnd code.aEnd code.bEnd := by
  obtain ⟨hlt, hequal⟩ := (Opcode.fits_equal_iff htag).mp h
  have hlength := hequal.length
  have htag' : (code.head count).tag = .equal := htag
  rw [Opcode.fits_equal_iff htag']
  refine ⟨⟨?_, hequal.part ?_ ?_ ?_ ?_ ?_⟩, hequal.part ?_ ?_ ?_ ?_ ?_⟩ <;>
    first | omega | (simp only [Opcode.head] <;> omega)

theorem Opcode.Fits.tail {code : Opcode} (h : code.Fits a b) (htag : code.tag = .equal)
    {count : Nat} (hcount : 0 < count) :
    (code.tail count).Fits a b ∧
      Equal a b code.aStart code.bStart (code.tail count).aStart (code.tail count).bStart := by
  obtain ⟨hlt, hequal⟩ := (Opcode.fits_equal_iff htag).mp h
  have hlength := hequal.length
  have htag' : (code.tail count).tag = .equal := htag
  rw [Opcode.fits_equal_iff htag']
  refine ⟨⟨?_, hequal.part ?_ ?_ ?_ ?_ ?_⟩, hequal.part ?_ ?_ ?_ ?_ ?_⟩ <;>
    first | omega | (simp only [Opcode.tail]; omega)

/-- Cutting the equal lines before the first change leaves a chain after equal lines. -/
theorem trimFirst_chain {codes : List Opcode} {i j i' j' count : Nat} (hcount : 0 < count)
    (h : Chain a b i j codes i' j') (hi : i ≤ a.length) (hj : j ≤ b.length) :
    ∃ m n, Equal a b i j m n ∧ Chain a b m n (codes.modifyHead fun code =>
      if code.tag = .equal then code.tail count else code) i' j' := by
  have hrefl : Equal a b i j i j := ⟨Nat.le_refl _, hi, hj, by omega, by omega⟩
  cases codes with
  | nil => exact ⟨i, j, hrefl, h⟩
  | cons code codes =>
    obtain ⟨rfl, rfl, hfits, hrest⟩ := h
    rw [List.modifyHead_cons]
    split
    · rename_i htag
      obtain ⟨htail, hbefore⟩ := hfits.tail htag hcount
      exact ⟨_, _, hbefore, rfl, rfl, htail, hrest⟩
    · exact ⟨_, _, hrefl, rfl, rfl, hfits, hrest⟩

/-- Cutting the equal lines after the last change leaves a chain before equal lines. -/
theorem trimLast_chain {codes : List Opcode} {i j i' j' count : Nat} (hcount : 0 < count)
    (h : Chain a b i j codes i' j') (hi : i' ≤ a.length) (hj : j' ≤ b.length) :
    ∃ m n, Chain a b i j (codes.modifyLast fun code =>
      if code.tag = .equal then code.head count else code) m n ∧ Equal a b m n i' j' := by
  have hrefl : Equal a b i' j' i' j' := ⟨Nat.le_refl _, hi, hj, by omega, by omega⟩
  rcases List.eq_nil_or_concat codes with rfl | ⟨codes, code, rfl⟩
  · exact ⟨i', j', h, hrefl⟩
  · rw [List.concat_eq_append] at h ⊢
    rw [List.modifyLast_concat]
    obtain ⟨m, n, hfirst, hstart, hstart', hfits, hend, hend'⟩ := chain_append.mp h
    subst hstart hstart' hend hend'
    split
    · rename_i htag
      obtain ⟨hhead, hafter⟩ := hfits.head htag hcount
      exact ⟨_, _, chain_append.mpr ⟨_, _, hfirst, rfl, rfl, hhead, rfl, rfl⟩, hafter⟩
    · exact ⟨_, _, chain_append.mpr ⟨_, _, hfirst, rfl, rfl, hfits, rfl, rfl⟩, hrefl⟩

/-- Groups that lead from the lines `i` and `j` to the ends of both sides, with equal lines
before, between and after them. -/
def Grouped (a b : List Line) (i j : Nat) : List (List Opcode) → Prop
  | [] => Equal a b i j a.length b.length
  | group :: groups => group ≠ [] ∧ ∃ m n m' n', Equal a b i j m n ∧ Chain a b m n group m' n' ∧
      Grouped a b m' n' groups

/-- A last group that is not kept holds no change. -/
theorem equal_of_dropped {group : List Opcode} {i j m n m' n' : Nat} (hgap : Equal a b i j m n)
    (hgroup : Chain a b m n group m' n')
    (h : ¬ (group ≠ [] ∧
      ¬ (group.length = 1 ∧ group.head?.all (fun code => code.tag = .equal)))) :
    Equal a b m n m' n' := by
  match group with
  | [] =>
    obtain ⟨rfl, rfl⟩ := hgroup
    exact ⟨Nat.le_refl _, hgap.aHigh, hgap.bHigh, by omega, by omega⟩
  | [code] =>
    obtain ⟨rfl, rfl, hfits, rfl, rfl⟩ := hgroup
    have htag : code.tag = .equal := by simpa using h
    exact ((Opcode.fits_equal_iff htag).mp hfits).2
  | _ :: _ :: _ => simp at h

theorem groupFrom_grouped {count : Nat} (hcount : 0 < count) {codes group : List Opcode}
    {i j m n m' n' i' j' : Nat} (hgap : Equal a b i j m n) (hgroup : Chain a b m n group m' n')
    (hcodes : Chain a b m' n' codes i' j') (hend : Equal a b i' j' a.length b.length) :
    Grouped a b i j (groupFrom count group codes) := by
  induction codes generalizing group i j m n m' n' with
  | nil =>
    obtain ⟨rfl, rfl⟩ := hcodes
    unfold groupFrom
    dsimp only
    split
    · rename_i hkept
      exact ⟨hkept.1, m, n, m', n', hgap, hgroup, hend⟩
    · rename_i hdropped
      exact hgap.trans ((equal_of_dropped hgap hgroup hdropped).trans hend)
  | cons code codes ih =>
    obtain ⟨rfl, rfl, hfits, hrest⟩ := hcodes
    unfold groupFrom
    split
    · rename_i hlong
      obtain ⟨hhead, -⟩ := hfits.head hlong.1 hcount
      obtain ⟨htail, -⟩ := hfits.tail hlong.1 hcount
      have hcut : Chain a b code.aStart code.bStart [code.head count] (code.head count).aEnd
          (code.head count).bEnd := chain_singleton.mpr ⟨rfl, rfl, hhead, rfl, rfl⟩
      refine ⟨by simp, m, n, _, _, hgap, chain_append.mpr ⟨_, _, hgroup, hcut⟩, ?_⟩
      refine ih ?_ (chain_singleton.mpr ⟨rfl, rfl, htail, rfl, rfl⟩) hrest
      have hequal := ((Opcode.fits_equal_iff hlong.1).mp hfits).2
      have hlength := hequal.length
      refine hequal.part ?_ ?_ ?_ ?_ ?_ <;> simp only [Opcode.head, Opcode.tail] <;> omega
    · refine ih hgap (chain_append.mpr ⟨_, _, hgroup, ?_⟩) hrest
      exact chain_singleton.mpr ⟨rfl, rfl, hfits, rfl, rfl⟩

/-- The groups of a diff cover every line that differs. -/
theorem groupedOpcodes_grouped [DecidableEq Line] (a b : List Line) {count : Nat}
    (hcount : 0 < count) : Grouped a b 0 0 (groupedOpcodes a b count) := by
  obtain ⟨m, n, hbefore, hfirst⟩ := trimFirst_chain hcount (opcodes_chain a b) (Nat.zero_le _)
    (Nat.zero_le _)
  obtain ⟨m', n', hchain, hafter⟩ := trimLast_chain hcount hfirst (Nat.le_refl _) (Nat.le_refl _)
  have hopen : Chain a b m n [] m n := ⟨rfl, rfl⟩
  exact groupFrom_grouped hcount hbefore hopen hchain hafter

/-! ### Lines of `a` in every group -/

theorem Chain.fits {i j i' j' : Nat} {codes : List Opcode} (h : Chain a b i j codes i' j') :
    ∀ code ∈ codes, code.Fits a b := by
  induction codes generalizing i j with
  | nil => simp
  | cons code codes ih =>
    obtain ⟨-, -, hfits, hrest⟩ := h
    exact List.forall_mem_cons.mpr ⟨hfits, ih hrest⟩

theorem Chain.exists_line {i j i' j' : Nat} {codes : List Opcode}
    (h : Chain a b i j codes i' j') (hlt : i < i') : ∃ code ∈ codes, code.aStart < code.aEnd := by
  induction codes generalizing i j with
  | nil => exact absurd h.1 (by omega)
  | cons code codes ih =>
    obtain ⟨rfl, rfl, hfits, hrest⟩ := h
    by_cases hline : code.aStart < code.aEnd
    · exact ⟨code, List.mem_cons_self, hline⟩
    · have hle := hfits.bounds.1
      obtain ⟨other, hother, hline⟩ := ih hrest (by omega)
      exact ⟨other, List.mem_cons_of_mem _ hother, hline⟩

theorem Chain.lt_of_line {i j i' j' : Nat} {codes : List Opcode}
    (h : Chain a b i j codes i' j') (hline : ∃ code ∈ codes, code.aStart < code.aEnd) : i < i' := by
  induction codes generalizing i j with
  | nil => simp at hline
  | cons code codes ih =>
    obtain ⟨rfl, rfl, hfits, hrest⟩ := h
    have hle := hfits.bounds.1
    have hrestle := hrest.bounds.1
    simp only [List.exists_mem_cons_iff] at hline
    rcases hline with hline | hline
    · omega
    · have := ih hrest hline
      omega

/-- A chain of opcodes moves on at least one side. -/
theorem Chain.progress {i j i' j' : Nat} {codes : List Opcode} (h : Chain a b i j codes i' j')
    (hne : codes ≠ []) : i < i' ∨ j < j' := by
  cases codes with
  | nil => exact absurd rfl hne
  | cons code codes =>
    obtain ⟨rfl, rfl, hfits, hrest⟩ := h
    have hrest := hrest.bounds
    have hbounds := hfits.bounds
    unfold Opcode.Fits at hfits
    split at hfits <;> omega

theorem groupFrom_lines {count : Nat} (hcount : 0 < count) {codes group : List Opcode}
    (hfits : ∀ code ∈ codes, code.Fits a b)
    (hline : ∃ code ∈ group ++ codes, code.aStart < code.aEnd) :
    ∀ other ∈ groupFrom count group codes, ∃ code ∈ other, code.aStart < code.aEnd := by
  induction codes generalizing group with
  | nil =>
    simp only [groupFrom, List.append_nil] at hline ⊢
    split
    · simpa using hline
    · simp
  | cons code codes ih =>
    obtain ⟨hcode, hcodes⟩ := List.forall_mem_cons.mp hfits
    unfold groupFrom
    split
    · rename_i hlong
      have htag' : (code.head count).tag = .equal := hlong.1
      have htag'' : (code.tail count).tag = .equal := hlong.1
      have hhead := ((Opcode.fits_equal_iff htag').mp (hcode.head hlong.1 hcount).1).1
      have htail := ((Opcode.fits_equal_iff htag'').mp (hcode.tail hlong.1 hcount).1).1
      refine List.forall_mem_cons.mpr ⟨⟨_, by simp, hhead⟩, ih hcodes ⟨_, by simp, htail⟩⟩
    · exact ih hcodes (by simpa using hline)

theorem groupedOpcodes_lines [DecidableEq Line] {a : List Line} (ha : a ≠ []) (b : List Line)
    {count : Nat} (hcount : 0 < count) :
    ∀ group ∈ groupedOpcodes a b count, ∃ code ∈ group, code.aStart < code.aEnd := by
  obtain ⟨m, n, -, hfirst⟩ := trimFirst_chain hcount (opcodes_chain a b) (Nat.zero_le _)
    (Nat.zero_le _)
  obtain ⟨m', n', hchain, -⟩ := trimLast_chain hcount hfirst (Nat.le_refl _) (Nat.le_refl _)
  refine groupFrom_lines hcount hchain.fits ?_
  rw [List.nil_append]
  refine Sequence.exists_mem_modifyLast (fun code hcode hline => ?_)
    (Sequence.exists_mem_modifyHead (fun code hcode hline => ?_) ?_)
  · split
    · simp only [Opcode.head]
      omega
    · exact hline
  · split
    · simp only [Opcode.tail]
      omega
    · exact hline
  · exact (opcodes_chain a b).exists_line (List.length_pos_iff.mpr ha)

end Chains

/-! ### The hunk of a group -/

section Hunks

variable {a b : List Text}

theorem Chain.getLast {i j i' j' : Nat} {codes : List Opcode} (h : Chain a b i j codes i' j')
    (hne : codes ≠ []) : (codes.getLast hne).aEnd = i' ∧ (codes.getLast hne).bEnd = j' := by
  induction codes generalizing i j with
  | nil => exact absurd rfl hne
  | cons code codes ih =>
    obtain ⟨-, -, -, hrest⟩ := h
    cases codes with
    | nil => exact hrest
    | cons next codes => exact ih hrest (by simp)

theorem hunk_eq {i j i' j' : Nat} {group : List Opcode} (h : Chain a b i j group i' j')
    (hne : group ≠ []) :
    hunk group a b = hunkHeader i i' j j' :: group.flatMap fun code => code.lines a b := by
  obtain ⟨hlast, hlast'⟩ := h.getLast hne
  cases group with
  | nil => exact absurd rfl hne
  | cons first rest =>
    obtain ⟨rfl, rfl, -, -⟩ := h
    simp only [hunk, hlast, hlast']

end Hunks

end Agentless.Text.Diff
