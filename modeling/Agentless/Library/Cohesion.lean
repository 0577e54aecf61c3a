import Mathlib.Algebra.BigOperators.Ring.Finset
import Mathlib.Algebra.Order.Ring.Rat
import Mathlib.Tactic.Ring

/-!
# What a labelling joins

Items pull each other, and a labelling joins the pairs of items that have one label. Giving one item
another label changes what is joined by twice the difference between what the others under the two
labels pull it.
-/

namespace Agentless.Cohesion

variable {ι κ : Type} [DecidableEq ι] [DecidableEq κ] (items : Finset ι) (pull : ι → ι → ℚ)

/-- The pull of all pairs that have one label. -/
def joined (label : ι → κ) : ℚ :=
  ∑ i ∈ items, ∑ j ∈ items, if label i = label j then pull i j else 0

/-- What the other items under the label pull the item. -/
def pulled (label : ι → κ) (item : ι) (under : κ) : ℚ :=
  ∑ j ∈ items.erase item, if label j = under then pull item j else 0

variable {items pull} {label : ι → κ} {item : ι}

/-- The pairs of one item, apart from the pairs of the others. -/
theorem joined_eq_erase (hsymm : ∀ i j, pull i j = pull j i) (hitem : item ∈ items) :
    joined items pull label = joined (items.erase item) pull label +
      2 * pulled items pull label item (label item) + pull item item := by
  have hrow : (∑ j ∈ items, if label item = label j then pull item j else 0) =
      pulled items pull label item (label item) + pull item item := by
    rw [← Finset.sum_erase_add _ _ hitem, if_pos rfl]
    simp only [pulled, eq_comm]
  have hcolumn : (∑ i ∈ items.erase item, if label i = label item then pull i item else 0) =
      pulled items pull label item (label item) := by
    simp only [pulled, hsymm _ item]
  have hothers : (∑ i ∈ items.erase item, ∑ j ∈ items, if label i = label j then pull i j else 0) =
      joined (items.erase item) pull label + pulled items pull label item (label item) := by
    rw [← hcolumn, joined, ← Finset.sum_add_distrib]
    exact Finset.sum_congr rfl fun i _ => (Finset.sum_erase_add _ _ hitem).symm
  unfold joined at hothers ⊢
  rw [← Finset.sum_erase_add _ _ hitem, hrow, hothers]
  ring

theorem joined_update (hsymm : ∀ i j, pull i j = pull j i) (hitem : item ∈ items) (under : κ) :
    joined items pull (Function.update label item under) =
      joined items pull label +
        2 * (pulled items pull label item under - pulled items pull label item (label item)) := by
  have hlabel {other : ι} (hother : other ∈ items.erase item) :
      Function.update label item under other = label other :=
    Function.update_of_ne (Finset.ne_of_mem_erase hother) _ _
  have hjoined : joined (items.erase item) pull (Function.update label item under) =
      joined (items.erase item) pull label := by
    refine Finset.sum_congr rfl fun i hi => Finset.sum_congr rfl fun j hj => ?_
    rw [hlabel hi, hlabel hj]
  have hpulled : pulled items pull (Function.update label item under) item under =
      pulled items pull label item under := by
    refine Finset.sum_congr rfl fun j hj => ?_
    rw [hlabel hj]
  rw [joined_eq_erase hsymm hitem, hjoined, Function.update_self, hpulled,
    @joined_eq_erase _ _ _ _ items pull label item hsymm hitem]
  ring

end Agentless.Cohesion
