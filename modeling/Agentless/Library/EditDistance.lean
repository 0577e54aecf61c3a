import Mathlib.Data.List.Basic
import Mathlib.Order.Bounds.Basic
import Mathlib.Order.MinMax
import Mathlib.Tactic.Common

/-!
# The Levenshtein distance

The least number of edits that lead from one list to another, where an edit deletes, inserts or
replaces one element.
-/

namespace Agentless

variable {α : Type}

/-- A number of edits leads from one list to another. -/
inductive Edits : Nat → List α → List α → Prop where
  | nil : Edits 0 [] []
  | keep (x : α) {count : Nat} {xs ys : List α} (h : Edits count xs ys) :
    Edits count (x :: xs) (x :: ys)
  | replace (x y : α) {count : Nat} {xs ys : List α} (h : Edits count xs ys) :
    Edits (count + 1) (x :: xs) (y :: ys)
  | delete (x : α) {count : Nat} {xs ys : List α} (h : Edits count xs ys) :
    Edits (count + 1) (x :: xs) ys
  | insert (y : α) {count : Nat} {xs ys : List α} (h : Edits count xs ys) :
    Edits (count + 1) xs (y :: ys)

namespace Edits

variable {count more : Nat} {xs ys xs' ys' : List α}

theorem nil_left (ys : List α) : Edits ys.length [] ys := by
  induction ys with
  | nil => exact .nil
  | cons y ys ih => exact .insert y ih

theorem nil_right (xs : List α) : Edits xs.length xs [] := by
  induction xs with
  | nil => exact .nil
  | cons x xs ih => exact .delete x ih

theorem append (h : Edits count xs ys) (h' : Edits more xs' ys') :
    Edits (count + more) (xs ++ xs') (ys ++ ys') := by
  induction h with
  | nil =>
    rw [Nat.zero_add]
    exact h'
  | keep x _ ih => exact .keep x ih
  | replace x y _ ih =>
    rw [Nat.succ_add]
    exact .replace x y ih
  | delete x _ ih =>
    rw [Nat.succ_add]
    exact .delete x ih
  | insert y _ ih =>
    rw [Nat.succ_add]
    exact .insert y ih

theorem reverse (h : Edits count xs ys) : Edits count xs.reverse ys.reverse := by
  induction h with
  | nil => exact .nil
  | keep x _ ih =>
    rw [List.reverse_cons, List.reverse_cons]
    exact ih.append (.keep x .nil)
  | replace x y _ ih =>
    rw [List.reverse_cons, List.reverse_cons]
    exact ih.append (.replace x y .nil)
  | delete x _ ih =>
    rw [List.reverse_cons]
    simpa using ih.append (.delete x .nil)
  | insert y _ ih =>
    rw [List.reverse_cons]
    simpa using ih.append (.insert y .nil)

/-- An edit changes the length by one at most. -/
theorem length_le (h : Edits count xs ys) :
    xs.length ≤ ys.length + count ∧ ys.length ≤ xs.length + count := by
  induction h with
  | nil => simp
  | keep | replace | delete | insert => simp only [List.length_cons]; omega

/-- The edits of a list that is cut lead to a cut of the other one. -/
theorem cut {zs : List α} (h : Edits count (xs ++ xs') zs) :
    ∃ first last ys ys', zs = ys ++ ys' ∧ count = first + last ∧ Edits first xs ys ∧
      Edits last xs' ys' := by
  generalize hwhole : xs ++ xs' = whole at h
  induction h generalizing xs with
  | nil =>
    obtain ⟨rfl, rfl⟩ := List.append_eq_nil_iff.mp hwhole
    exact ⟨0, 0, [], [], rfl, rfl, .nil, .nil⟩
  | @keep x count _ zs h ih =>
    cases xs with
    | nil =>
      obtain rfl : xs' = x :: _ := hwhole
      exact ⟨0, count, [], x :: zs, rfl, (Nat.zero_add _).symm, .nil, .keep x h⟩
    | cons x' xs =>
      obtain ⟨rfl, hrest⟩ := List.cons.inj hwhole
      obtain ⟨first, last, ys, ys', rfl, rfl, hfirst, hlast⟩ := ih hrest
      exact ⟨first, last, x' :: ys, ys', rfl, rfl, .keep x' hfirst, hlast⟩
  | @replace x y count _ zs h ih =>
    cases xs with
    | nil =>
      obtain rfl : xs' = x :: _ := hwhole
      exact ⟨0, count + 1, [], y :: zs, rfl, (Nat.zero_add _).symm, .nil, .replace x y h⟩
    | cons x' xs =>
      obtain ⟨rfl, hrest⟩ := List.cons.inj hwhole
      obtain ⟨first, last, ys, ys', rfl, rfl, hfirst, hlast⟩ := ih hrest
      exact ⟨first + 1, last, y :: ys, ys', rfl, by omega, .replace x' y hfirst, hlast⟩
  | @delete x count _ zs h ih =>
    cases xs with
    | nil =>
      obtain rfl : xs' = x :: _ := hwhole
      exact ⟨0, count + 1, [], zs, rfl, (Nat.zero_add _).symm, .nil, .delete x h⟩
    | cons x' xs =>
      obtain ⟨rfl, hrest⟩ := List.cons.inj hwhole
      obtain ⟨first, last, ys, ys', rfl, rfl, hfirst, hlast⟩ := ih hrest
      exact ⟨first + 1, last, ys, ys', rfl, by omega, .delete x' hfirst, hlast⟩
  | insert y h ih =>
    obtain ⟨first, last, ys, ys', rfl, rfl, hfirst, hlast⟩ := ih hwhole
    exact ⟨first + 1, last, y :: ys, ys', rfl, by omega, .insert y hfirst, hlast⟩

end Edits

section Distance

variable [DecidableEq α]

def levenshtein : List α → List α → Nat
  | [], ys => ys.length
  | xs, [] => xs.length
  | x :: xs, y :: ys =>
    min (min (levenshtein xs (y :: ys) + 1) (levenshtein (x :: xs) ys + 1))
      (levenshtein xs ys + if x = y then 0 else 1)

theorem levenshtein_nil_left (ys : List α) : levenshtein [] ys = ys.length := by rw [levenshtein]

theorem levenshtein_nil_right (xs : List α) : levenshtein xs [] = xs.length := by
  cases xs <;> rw [levenshtein]
  exact nofun

theorem levenshtein_cons (x y : α) (xs ys : List α) : levenshtein (x :: xs) (y :: ys) =
    min (min (levenshtein xs (y :: ys) + 1) (levenshtein (x :: xs) ys + 1))
      (levenshtein xs ys + if x = y then 0 else 1) := by
  rw [levenshtein]

theorem edits_levenshtein (xs ys : List α) : Edits (levenshtein xs ys) xs ys := by
  fun_induction levenshtein xs ys with
  | case1 ys => exact .nil_left ys
  | case2 xs => exact .nil_right xs
  | case3 x xs y ys ihdelete ihinsert ihboth =>
    have hboth : Edits (levenshtein xs ys + if x = y then 0 else 1) (x :: xs) (y :: ys) := by
      split_ifs with hxy
      · subst hxy
        exact .keep x ihboth
      · exact .replace x y ihboth
    rcases min_choice (min (levenshtein xs (y :: ys) + 1) (levenshtein (x :: xs) ys + 1))
      (levenshtein xs ys + if x = y then 0 else 1) with h | h
    · rw [h]
      rcases min_choice (levenshtein xs (y :: ys) + 1) (levenshtein (x :: xs) ys + 1) with h | h
      · rw [h]
        exact .delete x ihdelete
      · rw [h]
        exact .insert y ihinsert
    · rw [h]
      exact hboth

theorem levenshtein_delete_le (x : α) (xs ys : List α) :
    levenshtein (x :: xs) ys ≤ levenshtein xs ys + 1 := by
  cases ys with
  | nil => simp [levenshtein_nil_right]
  | cons y ys => rw [levenshtein_cons]; omega

theorem levenshtein_insert_le (y : α) (xs ys : List α) :
    levenshtein xs (y :: ys) ≤ levenshtein xs ys + 1 := by
  cases xs with
  | nil => simp [levenshtein_nil_left]
  | cons x xs => rw [levenshtein_cons]; omega

theorem levenshtein_le_of_edits {count : Nat} {xs ys : List α} (h : Edits count xs ys) :
    levenshtein xs ys ≤ count := by
  induction h with
  | nil => exact Nat.le_of_eq (levenshtein_nil_left [])
  | keep x h ih =>
    rw [levenshtein_cons, if_pos rfl]
    omega
  | replace x y h ih =>
    rw [levenshtein_cons]
    split_ifs <;> omega
  | delete x h ih => exact (levenshtein_delete_le x _ _).trans (Nat.succ_le_succ ih)
  | insert y h ih => exact (levenshtein_insert_le y _ _).trans (Nat.succ_le_succ ih)

theorem levenshtein_reverse (xs ys : List α) :
    levenshtein xs.reverse ys.reverse = levenshtein xs ys := by
  refine le_antisymm (levenshtein_le_of_edits (edits_levenshtein xs ys).reverse) ?_
  have h := (edits_levenshtein xs.reverse ys.reverse).reverse
  rw [List.reverse_reverse, List.reverse_reverse] at h
  exact levenshtein_le_of_edits h

/-- The recursion over the last elements. -/
theorem levenshtein_concat (x y : α) (xs ys : List α) : levenshtein (xs ++ [x]) (ys ++ [y]) =
    min (min (levenshtein xs (ys ++ [y]) + 1) (levenshtein (xs ++ [x]) ys + 1))
      (levenshtein xs ys + if x = y then 0 else 1) := by
  rw [← levenshtein_reverse (xs ++ [x]), ← levenshtein_reverse xs (ys ++ [y]),
    ← levenshtein_reverse (xs ++ [x]) ys, ← levenshtein_reverse xs ys, List.reverse_concat,
    List.reverse_concat, levenshtein_cons]

/-- Some prefix of the other list is as near to a prefix as the lists are to each other. -/
theorem exists_levenshtein_take_le (xs xs' zs : List α) :
    ∃ ys ys', zs = ys ++ ys' ∧ levenshtein xs ys ≤ levenshtein (xs ++ xs') zs := by
  obtain ⟨first, last, ys, ys', hzs, hcount, hfirst, -⟩ := (edits_levenshtein (xs ++ xs') zs).cut
  refine ⟨ys, ys', hzs, (levenshtein_le_of_edits hfirst).trans ?_⟩
  omega

end Distance

end Agentless
