import Mathlib.Data.List.Sort
import Mathlib.Data.List.Triplewise

/-!
# The outermost pieces of a row

A pass over a row of pieces drops each one that lies within an earlier one. Where pieces that
follow each other can be compared, the pass has to remember only the last piece that it kept.
-/

namespace Agentless.Outermost

variable {α β : Type*}

section Passes

variable (within : α → α → Prop) [DecidableRel within]

/-- Drops the pieces within one that was seen. -/
def outer (seen : List α) : List α → List α
  | [] => []
  | x :: rest =>
    if ∃ w ∈ seen, within x w then outer (seen ++ [x]) rest else x :: outer (seen ++ [x]) rest

/-- Drops the pieces within the last that was kept. -/
def outerLast (last : Option α) : List α → List α
  | [] => []
  | x :: rest =>
    if ∃ w ∈ last, within x w then outerLast last rest else x :: outerLast (some x) rest

end Passes

variable {within : α → α → Prop} [DecidableRel within]

theorem outer_sublist (seen row : List α) : (outer within seen row).Sublist row := by
  induction row generalizing seen with
  | nil => exact .slnil
  | cons x rest ih =>
    unfold outer
    split_ifs
    · exact (ih _).cons x
    · exact (ih _).cons_cons x

theorem mem_outer_iff {seen row : List α} {x : α} :
    x ∈ outer within seen row ↔
      ∃ before after, row = before ++ x :: after ∧ ∀ w ∈ seen ++ before, ¬ within x w := by
  induction row generalizing seen with
  | nil => simp [outer]
  | cons y rest ih =>
    have hrest : x ∈ outer within (seen ++ [y]) rest ↔ ∃ before after,
        y :: rest = (y :: before) ++ x :: after ∧ ∀ w ∈ seen ++ y :: before, ¬ within x w := by
      simpa [List.append_assoc] using @ih (seen ++ [y])
    unfold outer
    split_ifs with hseen
    · rw [hrest]
      constructor
      · rintro ⟨before, after, hrow, hnone⟩
        exact ⟨y :: before, after, hrow, hnone⟩
      · rintro ⟨before, after, hrow, hnone⟩
        cases before with
        | nil =>
          obtain ⟨rfl, rfl⟩ := List.cons.inj hrow
          obtain ⟨w, hw, hwithin⟩ := hseen
          exact absurd hwithin (hnone w (List.mem_append_left _ hw))
        | cons z before =>
          obtain ⟨rfl, -⟩ := List.cons.inj hrow
          exact ⟨before, after, hrow, hnone⟩
    · rw [List.mem_cons, hrest]
      constructor
      · rintro (rfl | ⟨before, after, hrow, hnone⟩)
        · exact ⟨[], rest, rfl, by simpa using hseen⟩
        · exact ⟨y :: before, after, hrow, hnone⟩
      · rintro ⟨before, after, hrow, hnone⟩
        cases before with
        | nil => exact .inl (List.cons.inj hrow).1.symm
        | cons z before =>
          obtain ⟨rfl, -⟩ := List.cons.inj hrow
          exact .inr ⟨before, after, hrow, hnone⟩

theorem outerLast_map {f : β → α} (last : Option β) (row : List β) :
    outerLast within (last.map f) (row.map f) =
      (outerLast (fun x y => within (f x) (f y)) last row).map f := by
  induction row generalizing last with
  | nil => rfl
  | cons x rest ih =>
    have hlast : (∃ w ∈ last.map f, within (f x) w) ↔ ∃ w ∈ last, within (f x) (f w) := by simp
    simp only [List.map_cons, outerLast, hlast]
    split_ifs
    · exact ih last
    · exact congrArg (f x :: ·) (ih (some x))

/-- The last kept piece stands for all that were seen: a piece within one of them is within it. -/
theorem outerLast_eq_outer (htrans : ∀ {x y z}, within x y → within y z → within x z)
    {seen row : List α} {last : Option α}
    (hlast : ∀ x ∈ row, ∀ w ∈ seen, within x w → ∃ w ∈ last, within x w)
    (hseen : ∀ w ∈ last, w ∈ seen)
    (hrow : (seen ++ row).Triplewise fun w x y => within y w → within x w ∨ within y x) :
    outerLast within last row = outer within seen row := by
  induction row generalizing seen last with
  | nil => rfl
  | cons x rest ih =>
    have hrow' : ((seen ++ [x]) ++ rest).Triplewise
        fun w x y => within y w → within x w ∨ within y x := by simpa using hrow
    unfold outerLast outer
    by_cases hkept : ∃ w ∈ last, within x w
    · obtain ⟨w, hw, hwithin⟩ := hkept
      rw [if_pos ⟨w, hw, hwithin⟩, if_pos ⟨w, hseen w hw, hwithin⟩]
      refine ih (fun y hy v hv hyv => ?_) (fun v hv => List.mem_append_left _ (hseen v hv)) hrow'
      obtain hv | hv := List.mem_append.mp hv
      · exact hlast y (List.mem_cons_of_mem _ hy) v hv hyv
      · obtain rfl := List.mem_singleton.mp hv
        exact ⟨w, hw, htrans hyv hwithin⟩
    · have hnone : ¬ ∃ w ∈ seen, within x w := fun ⟨w, hw, hwithin⟩ =>
        hkept (hlast x List.mem_cons_self w hw hwithin)
      rw [if_neg hkept, if_neg hnone]
      refine congrArg (x :: ·) (ih (fun y hy v hv hyv => ⟨x, rfl, ?_⟩) ?_ hrow')
      · obtain hv | hv := List.mem_append.mp hv
        -- a piece within an earlier one is within the piece between them
        · have hpairs := (List.triplewise_append.mp hrow).2.2.1 v hv
          obtain hx | hy := (List.pairwise_cons.mp hpairs).1 y hy hyv
          · exact absurd ⟨v, hv, hx⟩ hnone
          · exact hy
        · obtain rfl := List.mem_singleton.mp hv
          exact hyv
      · rintro v ⟨⟩
        exact List.mem_append_right _ (List.mem_singleton_self x)

/-- A pair of a list without repeats is in it in one order. -/
theorem not_pair_of_pair {row : List α} {x y : α} (hrow : row.Nodup) (h : [x, y].Sublist row) :
    ¬ [y, x].Sublist row := by
  induction row with
  | nil => grind
  | cons z rest ih =>
    obtain ⟨hz, hrest⟩ := List.nodup_cons.mp hrow
    intro h'
    have hxy := List.cons_sublist_cons'.mp h
    have hyx := List.cons_sublist_cons'.mp h'
    grind [List.Sublist.subset]

/-- A sort keeps the order of pieces that it does not tell apart. -/
theorem pairwise_insertionSort_finRange {n : Nat} {r : Fin n → Fin n → Prop} [DecidableRel r]
    [Std.Total r] [IsTrans (Fin n) r] :
    ((List.finRange n).insertionSort r).Pairwise fun i j => r i j ∧ (r j i → i < j) := by
  have hsorted {i j : Fin n} : [i, j].Sublist ((List.finRange n).insertionSort r) → r i j :=
    fun h => List.pairwise_iff_forall_sublist.mp (List.pairwise_insertionSort r _) h
  have hnodup : ((List.finRange n).insertionSort r).Nodup :=
    (List.perm_insertionSort r _).nodup_iff.mpr (List.nodup_finRange n)
  refine List.pairwise_iff_forall_sublist.mpr fun {i j} h => ⟨hsorted h, fun hji => ?_⟩
  by_contra hle
  have hne : i ≠ j := by
    rintro rfl
    exact absurd (hnodup.sublist h) (by simp)
  have hlt : j < i := lt_of_le_of_ne (not_lt.mp hle) hne.symm
  have hpair : [j, i].Sublist (List.finRange n) :=
    List.sublist_of_subperm_of_pairwise (r := (· < ·))
      (List.subperm_of_subset (by simpa using hne.symm) fun k _ => List.mem_finRange k)
      (by simpa using hlt) (List.pairwise_lt_finRange n)
  exact not_pair_of_pair hnodup h (List.pair_sublist_insertionSort hji hpair)

end Agentless.Outermost
