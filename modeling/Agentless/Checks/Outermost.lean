import Agentless.Checks.Copies
import Agentless.Library.Outermost
import Mathlib.Data.Finset.Basic

/-!
# The copies that are reported

`clone_delta` folds a copy into the last outer one when its lines lie within that copy's lines. The
copies come by path, by first line and with the widest first, so the last outer copy reaches as far
as any before it, and the fold keeps one copy for each span that no other copy holds.
-/

namespace Agentless.Checks.Copies

open Agentless.Outermost

/-- By path, then by the first line, then with the last line falling. -/
def Placed.opens (x y : Placed) : Prop :=
  x.path < y.path ∨ x.path = y.path ∧ (x.block.startLine < y.block.startLine ∨
    x.block.startLine = y.block.startLine ∧ y.block.endLine ≤ x.block.endLine)

instance : DecidableRel Placed.opens := fun x y => inferInstanceAs (Decidable
  (x.path < y.path ∨ x.path = y.path ∧ (x.block.startLine < y.block.startLine ∨
    x.block.startLine = y.block.startLine ∧ y.block.endLine ≤ x.block.endLine)))

def within (inner outer : Placed) : Prop :=
  inner.path = outer.path ∧ outer.block.startLine ≤ inner.block.startLine ∧
    inner.block.endLine ≤ outer.block.endLine

instance : DecidableRel within := fun inner outer => inferInstanceAs (Decidable
  (inner.path = outer.path ∧ outer.block.startLine ≤ inner.block.startLine ∧
    inner.block.endLine ≤ outer.block.endLine))

def nearDuplicate (placed : Placed) (reported : Finset (Text × Nat)) : Bool :=
  placed.block.function && (placed.path, placed.block.startLine) ∈ reported

/-- A copy that is not reported folds others all the same. -/
def foldCopies (reported : Finset (Text × Nat)) (outer : Option Placed) :
    List Placed → List Placed
  | [] => []
  | id :: copies =>
    if outer.any fun outer => within id outer then foldCopies reported outer copies
    else if nearDuplicate id reported then foldCopies reported (some id) copies
    else id :: foldCopies reported (some id) copies

def outermost (copies : List Placed) (reported : Finset (Text × Nat)) : List Placed :=
  foldCopies reported none (copies.insertionSort Placed.opens)

/-- No other copy's lines hold the copy's, but for later copies of the same lines. -/
def Outermost (copies : List Placed) (i : Fin copies.length) : Prop :=
  ∀ j, j ≠ i → within copies[i] copies[j] → within copies[j] copies[i] ∧ i < j

/-! ## The fold -/

theorem foldCopies_eq (reported : Finset (Text × Nat)) (last : Option Placed)
    (copies : List Placed) :
    foldCopies reported last copies =
      (outerLast within last copies).filter fun placed => !nearDuplicate placed reported := by
  induction copies generalizing last with
  | nil => rfl
  | cons id copies ih =>
    have hlast : (last.any fun outer => decide (within id outer)) = true ↔
        ∃ outer ∈ last, within id outer := by cases last <;> simp
    unfold foldCopies outerLast
    simp only [hlast, ih]
    split_ifs with hwithin hreported
    · rfl
    · rw [List.filter_cons_of_neg (by simp [hreported])]
    · rw [List.filter_cons_of_pos (by simp [hreported])]

theorem within_trans {x y z : Placed} (h : within x y) (h' : within y z) : within x z :=
  ⟨h.1.trans h'.1, h'.2.1.trans h.2.1, h.2.2.trans h'.2.2⟩

theorem opens_total (x y : Placed) : x.opens y ∨ y.opens x := by
  unfold Placed.opens
  obtain hlt | heq | hgt := lt_trichotomy x.path y.path
  · exact .inl (.inl hlt)
  · grind
  · exact .inr (.inl hgt)

theorem opens_trans {x y z : Placed} (h : x.opens y) (h' : y.opens z) : x.opens z := by
  unfold Placed.opens at h h' ⊢
  obtain hlt | ⟨heq, hlines⟩ := h
  · obtain hlt' | ⟨heq', -⟩ := h'
    · exact .inl (hlt.trans hlt')
    · exact .inl (heq' ▸ hlt)
  · obtain hlt' | ⟨heq', hlines'⟩ := h'
    · exact .inl (heq ▸ hlt')
    · exact .inr ⟨heq.trans heq', by omega⟩

theorem within_between {w x y : Placed} (hwx : w.opens x) (hxy : x.opens y) (h : within y w) :
    within x w ∨ within y x := by
  obtain ⟨hpath, hstart, hend⟩ := h
  have hsame : x.path = w.path := by
    obtain hlt | ⟨heq, -⟩ := hwx
    · obtain hlt' | ⟨heq', -⟩ := hxy
      · exact absurd (hlt.trans hlt') (hpath ▸ lt_irrefl _)
      · exact heq'.trans hpath
    · exact heq.symm
  have hwx' : w.block.startLine ≤ x.block.startLine := by
    obtain hlt | ⟨-, hlines⟩ := hwx
    · exact absurd hlt (hsame ▸ lt_irrefl _)
    · omega
  have hxy' : x.block.startLine ≤ y.block.startLine := by
    obtain hlt | ⟨-, hlines⟩ := hxy
    · exact absurd hlt (by rw [hsame, hpath]; exact lt_irrefl _)
    · omega
  obtain hle | hlt := le_or_gt x.block.endLine w.block.endLine
  · exact .inl ⟨hsame, hwx', hle⟩
  · exact .inr ⟨hpath.trans hsame.symm, hxy', hend.trans hlt.le⟩

/-- A copy that lies within one after it has the same lines. -/
theorem within_of_opens {x y : Placed} (hxy : x.opens y) (h : within x y) : within y x := by
  obtain ⟨hpath, hstart, hend⟩ := h
  obtain hlt | ⟨-, hlines⟩ := hxy
  · exact absurd hlt (hpath ▸ lt_irrefl _)
  · exact ⟨hpath.symm, by omega, by omega⟩

theorem opens_of_same {x y : Placed} (h : within x y) (h' : within y x) : x.opens y :=
  .inr ⟨h.1, .inr ⟨le_antisymm h'.2.1 h.2.1, h'.2.2⟩⟩

/-! ## By position -/

section Positions

variable {copies : List Placed} {i j : Fin copies.length}

/-- The positions of the copies, in the order of the fold. -/
def positions (copies : List Placed) : List (Fin copies.length) :=
  (List.finRange copies.length).insertionSort fun i j => copies[i].opens copies[j]

theorem map_positions (copies : List Placed) :
    (positions copies).map copies.get = copies.insertionSort Placed.opens := by
  have hmap := List.map_insertionSort (fun i j : Fin copies.length => copies[i].opens copies[j])
    Placed.opens copies.get (List.finRange copies.length) fun i _ j _ => Iff.rfl
  rwa [List.map_get_finRange] at hmap

theorem pairwise_positions (copies : List Placed) :
    (positions copies).Pairwise fun i j =>
      copies[i].opens copies[j] ∧ (copies[j].opens copies[i] → i < j) := by
  have : Std.Total fun i j : Fin copies.length => copies[i].opens copies[j] :=
    ⟨fun i j => opens_total _ _⟩
  have : IsTrans (Fin copies.length) fun i j => copies[i].opens copies[j] :=
    ⟨fun _ _ _ => opens_trans⟩
  exact pairwise_insertionSort_finRange

theorem mem_positions (i : Fin copies.length) : i ∈ positions copies :=
  (List.perm_insertionSort _ _).mem_iff.mpr (List.mem_finRange i)

theorem nodup_positions (copies : List Placed) : (positions copies).Nodup :=
  (List.perm_insertionSort _ _).nodup_iff.mpr (List.nodup_finRange _)

/-- A position is outermost exactly when no position before it holds its copy. -/
theorem mem_outer_iff_outermost :
    i ∈ outer (fun i j => within (copies.get i) (copies.get j)) [] (positions copies) ↔
      Outermost copies i := by
  have hsorted := pairwise_positions copies
  have hnodup := nodup_positions copies
  rw [mem_outer_iff]
  constructor
  · rintro ⟨before, after, hrow, hnone⟩ j hne hwithin
    have hj := mem_positions j
    rw [hrow, List.pairwise_append, List.pairwise_cons] at hsorted
    rw [hrow, List.mem_append, List.mem_cons] at hj
    obtain hj | rfl | hj := hj
    · exact absurd hwithin (hnone j (by simpa using hj))
    · exact absurd rfl hne
    · obtain ⟨hopens, hlt⟩ := hsorted.2.1.1 j hj
      have hsame := within_of_opens hopens hwithin
      exact ⟨hsame, hlt (opens_of_same hsame hwithin)⟩
  · intro houter
    obtain ⟨before, after, hrow⟩ := List.append_of_mem (mem_positions i)
    refine ⟨before, after, hrow, fun j hj hwithin => ?_⟩
    rw [hrow, List.pairwise_append] at hsorted
    rw [hrow, List.nodup_append] at hnodup
    have hj : j ∈ before := by simpa using hj
    obtain ⟨hsame, hlt⟩ := houter j (hnodup.2.2 j hj i List.mem_cons_self) hwithin
    have hafter := (hsorted.2.2 j hj i List.mem_cons_self).2 (opens_of_same hwithin hsame)
    exact absurd hlt hafter.asymm

theorem outerLast_positions (copies : List Placed) :
    outerLast (fun i j => within (copies.get i) (copies.get j)) none (positions copies) =
      outer (fun i j => within (copies.get i) (copies.get j)) [] (positions copies) := by
  have htrans {i j k : Fin copies.length} (h : within (copies.get i) (copies.get j))
      (h' : within (copies.get j) (copies.get k)) : within (copies.get i) (copies.get k) :=
    within_trans h h'
  refine @outerLast_eq_outer _ (fun i j => within (copies.get i) (copies.get j)) _ htrans
    [] (positions copies) none (fun _ _ w hw => absurd hw List.not_mem_nil)
    (fun w hw => absurd hw (Option.not_mem_none w)) ?_
  rw [List.nil_append]
  have hsorted := pairwise_positions copies
  generalize positions copies = row at hsorted ⊢
  induction row with
  | nil => exact .nil
  | cons w rest ih =>
    obtain ⟨hw, hrest⟩ := List.pairwise_cons.mp hsorted
    refine .cons (hrest.imp_of_mem fun hx _ hxy => ?_) (ih hrest)
    exact within_between (hw _ hx).1 hxy.1

/-- What is reported is each copy whose lines no other copy of its file holds, the first of those
with the same lines, unless it is a function that was reported as a near duplicate. -/
theorem outermost_eq (copies : List Placed) (reported : Finset (Text × Nat)) :
    ∃ kept : List (Fin copies.length), kept.Nodup ∧
      outermost copies reported = kept.map copies.get ∧
      ∀ i, i ∈ kept ↔ Outermost copies i ∧ nearDuplicate copies[i] reported = false := by
  let kept := (outer (fun i j => within (copies.get i) (copies.get j)) [] (positions copies)).filter
    fun i => !nearDuplicate copies[i] reported
  have hlast := @outerLast_map _ _ within _ copies.get none (positions copies)
  refine ⟨kept, ?_, ?_, fun i => ?_⟩
  · exact ((nodup_positions copies).sublist (outer_sublist _ _)).filter _
  · have hfold := congrArg (List.filter fun i => !nearDuplicate copies[i] reported)
      (outerLast_positions copies)
    rw [outermost, foldCopies_eq, ← map_positions, ← Option.map_none, hlast, List.filter_map]
    exact congrArg (List.map copies.get) hfold
  · rw [List.mem_filter, mem_outer_iff_outermost, Bool.not_eq_true']

end Positions

end Agentless.Checks.Copies
