import Agentless.Text.DiffLongest

/-!
# The blocks and opcodes of two sequences

1. The matching blocks are in order on both sides, and no two of them touch on both.
2. The opcodes tile both sides, and replaying them on `a` gives `b`.
-/

namespace Agentless.Text.Diff

variable {Line : Type} {a b : List Line}

/-! ## Blocks that do not touch -/

/-- The second block starts where the first one ends, on both sides. -/
def Block.Touches (first second : Block) : Prop :=
  first.aAt + first.size = second.aAt ∧ first.bAt + first.size = second.bAt

/-- Merging extends a block at its end only. -/
theorem mergeFrom_head {current : Block} (h : 0 < current.size) (found : List Block) :
    ∃ size rest, mergeFrom current found = ⟨current.aAt, current.bAt, size⟩ :: rest := by
  induction found generalizing current with
  | nil => exact ⟨current.size, [], by simp [mergeFrom, h]⟩
  | cons block found ih =>
    unfold mergeFrom
    split_ifs with htouch
    · obtain ⟨size, rest, heq⟩ :=
        @ih { current with size := current.size + block.size } (by dsimp only; omega)
      exact ⟨size, rest, heq⟩
    · exact ⟨current.size, mergeFrom block found, rfl⟩

theorem mergeFrom_apart {current : Block} {found : List Block} (h : 0 < current.size)
    (hfound : ∀ block ∈ found, 0 < block.size) :
    (∀ block ∈ mergeFrom current found, 0 < block.size) ∧
      (mergeFrom current found).IsChain fun first second => ¬ first.Touches second := by
  induction found generalizing current with
  | nil => simp [mergeFrom, h]
  | cons block found ih =>
    obtain ⟨hblock, hrest⟩ := List.forall_mem_cons.mp hfound
    unfold mergeFrom
    split_ifs with htouch
    · exact ih (by dsimp only; omega) hrest
    · obtain ⟨hsizes, hchain⟩ := ih hblock hrest
      obtain ⟨size, rest, heq⟩ := mergeFrom_head hblock found
      refine ⟨List.forall_mem_cons.mpr ⟨h, hsizes⟩, ?_⟩
      rw [heq] at hchain ⊢
      exact List.isChain_cons_cons.mpr ⟨htouch, hchain⟩

theorem mergeAdjacent_apart {found : List Block} (hfound : ∀ block ∈ found, 0 < block.size) :
    (∀ block ∈ mergeAdjacent found, 0 < block.size) ∧
      (mergeAdjacent found).IsChain fun first second => ¬ first.Touches second := by
  cases found with
  | nil => simp [mergeAdjacent, mergeFrom]
  | cons block found =>
    obtain ⟨hblock, hrest⟩ := List.forall_mem_cons.mp hfound
    unfold mergeAdjacent mergeFrom
    split_ifs with htouch hcurrent
    · exact mergeFrom_apart (by dsimp only; omega) hrest
    · exact absurd hcurrent (Nat.lt_irrefl 0)
    · exact mergeFrom_apart hblock hrest

theorem Ordered.matches_ {blocks : List Block} {i j : Nat} (h : Ordered a b i j blocks) :
    ∀ block ∈ blocks, i ≤ block.aAt ∧ j ≤ block.bAt ∧ block.Matches a b := by
  induction blocks generalizing i j with
  | nil => exact nofun
  | cons block blocks ih =>
    obtain ⟨hi, hj, hblock, hrest⟩ := h
    refine List.forall_mem_cons.mpr ⟨⟨hi, hj, hblock⟩, fun other hother => ?_⟩
    obtain ⟨hai, hbj, hother⟩ := ih hrest other hother
    exact ⟨by omega, by omega, hother⟩

/-- Blocks in order, of which each but the last has lines, increase on both sides. -/
theorem Ordered.increasing {blocks : List Block} {last : Block} {i j : Nat}
    (h : Ordered a b i j (blocks ++ [last])) (hsizes : ∀ block ∈ blocks, 0 < block.size) :
    (blocks ++ [last]).Pairwise fun first second =>
      first.aAt < second.aAt ∧ first.bAt < second.bAt := by
  induction blocks generalizing i j with
  | nil => exact List.pairwise_singleton _ _
  | cons block blocks ih =>
    obtain ⟨hsize, hsizes⟩ := List.forall_mem_cons.mp hsizes
    obtain ⟨hi, hj, hblock, hrest⟩ := h
    refine List.pairwise_cons.mpr ⟨fun other hother => ?_, ih hrest hsizes⟩
    obtain ⟨hai, hbj, -⟩ := hrest.matches_ other hother
    exact ⟨by omega, by omega⟩

/-! ## Replaying opcodes -/

/-- What an opcode of the tag covers: a deletion no line of `b`, an insertion no line of `a`. -/
def Opcode.Tagged (code : Opcode) : Prop :=
  match code.tag with
  | .replace => code.aStart < code.aEnd ∧ code.bStart < code.bEnd
  | .delete => code.aStart < code.aEnd ∧ code.bStart = code.bEnd
  | .insert => code.aStart = code.aEnd ∧ code.bStart < code.bEnd
  | .equal => code.aStart < code.aEnd ∧ code.bStart < code.bEnd

/-- The lines that an opcode puts in place of its lines of `a`. An equal run keeps them. -/
def Opcode.output (a b : List Line) (code : Opcode) : List Line :=
  match code.tag with
  | .equal => slice a code.aStart code.aEnd
  | .delete => []
  | .insert | .replace => slice b code.bStart code.bEnd

def replay (a b : List Line) (codes : List Opcode) : List Line := codes.flatMap (·.output a b)

theorem opcodesFrom_tagged {blocks : List Block} {i j : Nat} (h : Ordered a b i j blocks) :
    ∀ code ∈ opcodesFrom i j blocks, code.Tagged := by
  induction blocks generalizing i j with
  | nil => exact nofun
  | cons block blocks ih =>
    obtain ⟨hi, hj, -, hrest⟩ := h
    intro code hcode
    rw [opcodesFrom, List.mem_append, List.mem_append] at hcode
    obtain (hchange | hequal) | hlater := hcode
    · by_cases ha : i < block.aAt <;> by_cases hb : j < block.bAt <;>
        simp only [changeTag, ha, hb, decide_true, decide_false, List.mem_singleton,
          List.not_mem_nil] at hchange
      · subst hchange
        exact ⟨ha, hb⟩
      · subst hchange
        exact ⟨ha, by dsimp only; omega⟩
      · subst hchange
        exact ⟨by dsimp only; omega, hb⟩
    · split_ifs at hequal with hsize
      · rw [List.mem_singleton.mp hequal]
        exact ⟨by dsimp only; omega, by dsimp only; omega⟩
      · cases hequal
    · exact ih hrest code hlater

theorem Opcode.Fits.output_eq {code : Opcode} (h : code.Fits a b) (htagged : code.Tagged) :
    code.output a b = slice b code.bStart code.bEnd := by
  unfold Opcode.output
  unfold Opcode.Tagged at htagged
  unfold Opcode.Fits at h
  cases htag : code.tag <;> simp only [htag] at htagged h ⊢
  · rw [htagged.2, slice_self]
  · exact h.2.slice_eq

/-- The lines that a tiling puts out are those of `b`, and the ones it takes those of `a`. -/
theorem Chain.replay_eq {codes : List Opcode} {i j i' j' : Nat} (h : Chain a b i j codes i' j')
    (htagged : ∀ code ∈ codes, code.Tagged) :
    replay a b codes = slice b j j' ∧
      codes.flatMap (fun code => slice a code.aStart code.aEnd) = slice a i i' := by
  induction codes generalizing i j with
  | nil =>
    obtain ⟨rfl, rfl⟩ := h
    simp [replay]
  | cons code codes ih =>
    obtain ⟨rfl, rfl, hfits, hrest⟩ := h
    obtain ⟨hcode, htagged⟩ := List.forall_mem_cons.mp htagged
    obtain ⟨hreplay, htaken⟩ := ih hrest htagged
    obtain ⟨ha, hb, -⟩ := hfits.bounds
    obtain ⟨ha', hb'⟩ := hrest.bounds
    rw [replay] at hreplay ⊢
    rw [List.flatMap_cons, List.flatMap_cons, hreplay, htaken, hfits.output_eq hcode,
      slice_append hb hb', slice_append ha ha']
    exact ⟨rfl, rfl⟩

/-! ## The claims of the matcher -/

variable [DecidableEq Line]

/-- The blocks increase on both sides, do not touch, hold equal lines and end with the end block;
the opcodes tile both sides and turn `a` into `b`; and with fewer than 200 lines in `b` the match of
any window is the earliest of its longest runs. -/
theorem matchingBlocks_exact (a b : List Line) :
    (∃ found, matchingBlocks a b = found ++ [⟨a.length, b.length, 0⟩] ∧
      (∀ block ∈ found, 0 < block.size ∧ block.Matches a b) ∧
      found.IsChain fun first second => ¬ first.Touches second) ∧
    ((matchingBlocks a b).Pairwise fun first second =>
      first.aAt < second.aAt ∧ first.bAt < second.bAt) ∧
    Chain a b 0 0 (opcodes a b) a.length b.length ∧
    (∀ code ∈ opcodes a b, code.Tagged) ∧
    replay a b (opcodes a b) = b ∧
    (opcodes a b).flatMap (fun code => slice a code.aStart code.aEnd) = a ∧
    (b.length < 200 → ∀ span : Span, span.aHigh ≤ a.length → span.bHigh ≤ b.length →
      (longestMatch a b span).Within a b span ∧
        ∀ block : Block, block.Within a b span → (longestMatch a b span).Outranks block) := by
  have hordered := matchingBlocks_ordered a b
  have hsizes : ∀ block ∈ (blocks a b).insertionSort Block.le, 0 < block.size := fun block hblock =>
    ((blocks_searched a b).matches_ block ((List.perm_insertionSort _ _).mem_iff.mp hblock)).1
  obtain ⟨hpos, hapart⟩ := mergeAdjacent_apart hsizes
  have htagged := opcodesFrom_tagged hordered
  obtain ⟨hreplay, htaken⟩ := (opcodes_chain a b).replay_eq htagged
  refine ⟨⟨_, rfl, fun block hblock => ⟨hpos block hblock, ?_⟩, hapart⟩, hordered.increasing hpos,
    opcodes_chain a b, htagged, by simpa using hreplay, by simpa using htaken,
    fun hb span haHigh _ => ⟨longestMatch_within a b span, fun _ => longestMatch_outranks hb haHigh⟩⟩
  exact (hordered.matches_ block (List.mem_append_left _ hblock)).2.2

end Agentless.Text.Diff
