import Mathlib.Data.List.Sort

/-!
# Stable sorting

Insertion sort keeps the order of equal items. So an item can be left out of a list before it is
sorted, and it is missed at one place only: after every item that stands before it in the list and
is not greater.
-/

namespace Agentless.StableSort

variable {α : Type} (r : α → α → Prop) [DecidableRel r]

theorem orderedInsert_append_of_exists {item : α} {front : List α}
    (h : ∃ other ∈ front, r item other) (back : List α) :
    (front ++ back).orderedInsert r item = front.orderedInsert r item ++ back := by
  induction front with
  | nil => simp at h
  | cons first front ih =>
    by_cases hfirst : r item first
    · simp [List.orderedInsert_cons, hfirst]
    · have hfront : ∃ other ∈ front, r item other := by simpa [hfirst] using h
      simp [List.orderedInsert_cons, hfirst, ih hfront]

theorem orderedInsert_append_of_forall {item : α} {front : List α}
    (h : ∀ other ∈ front, ¬r item other) (back : List α) :
    (front ++ back).orderedInsert r item = front ++ back.orderedInsert r item := by
  induction front with
  | nil => rfl
  | cons first front ih =>
    obtain ⟨hfirst, hfront⟩ := List.forall_mem_cons.mp h
    simp [List.orderedInsert_cons, hfirst, ih hfront]

variable [Std.Total r] [IsTrans α r]

/-- Where an item stands in a sorted list, and what the list is without it. -/
theorem exists_insertionSort_append (before : List α) (item : α) (after : List α) :
    ∃ front back, (before ++ item :: after).insertionSort r = front ++ item :: back ∧
      (before ++ after).insertionSort r = front ++ back ∧
      ∀ other ∈ before, r other item → other ∈ front := by
  induction before with
  | nil =>
    exact ⟨_, _, List.orderedInsert_eq_take_drop r item _,
      (List.takeWhile_append_dropWhile ..).symm, nofun⟩
  | cons first before ih =>
    obtain ⟨front, back, hwith, hwithout, hfront⟩ := ih
    rw [List.cons_append, List.cons_append, List.insertionSort_cons, List.insertionSort_cons, hwith,
      hwithout]
    by_cases hexists : ∃ other ∈ front, r first other
    · refine ⟨_, back, orderedInsert_append_of_exists r hexists _,
        orderedInsert_append_of_exists r hexists _, ?_⟩
      intro other hother hle
      rw [List.mem_orderedInsert]
      exact (List.mem_cons.mp hother).imp_right fun hmem => hfront other hmem hle
    · rw [orderedInsert_append_of_forall r (by simpa using hexists),
        orderedInsert_append_of_forall r (by simpa using hexists)]
      by_cases hfirst : r first item
      · have hback : back.orderedInsert r first = first :: back := by
          have hsorted := List.pairwise_insertionSort r (before ++ item :: after)
          rw [hwith, List.pairwise_append, List.pairwise_cons] at hsorted
          cases back with
          | nil => rfl
          | cons next back =>
            have hnext := hsorted.2.1.1 next List.mem_cons_self
            rw [List.orderedInsert_cons, if_pos (IsTrans.trans _ _ _ hfirst hnext)]
        refine ⟨front ++ [first], back, ?_, ?_, ?_⟩
        · rw [List.orderedInsert_cons, if_pos hfirst, List.append_assoc, List.singleton_append]
        · rw [hback, List.append_assoc, List.singleton_append]
        · intro other hother hle
          rw [List.mem_append, List.mem_singleton]
          exact (List.mem_cons.mp hother).symm.imp_left fun hmem => hfront other hmem hle
      · refine ⟨front, back.orderedInsert r first, ?_, rfl, ?_⟩
        · rw [List.orderedInsert_cons, if_neg hfirst]
        · intro other hother hle
          rcases List.mem_cons.mp hother with rfl | hmem
          · exact absurd hle hfirst
          · exact hfront other hmem hle

end Agentless.StableSort
