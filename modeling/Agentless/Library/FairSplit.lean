import Mathlib.Algebra.BigOperators.Group.Finset.Basic
import Mathlib.Algebra.Order.BigOperators.Group.Finset
import Mathlib.Algebra.Group.Action.Defs
import Mathlib.Tactic.Linarith
import Mathlib.Tactic.Ring

/-!
# The max-min fair split of a budget

Some items are cut and get an equal share, and the others are kept at their own cost. The split is
fair when no kept item costs more than the share, every cut one does, and what is left of the budget
is less than one unit for each cut item. There is one fair split only.
-/

namespace Agentless

variable {ι κ : Type} [DecidableEq ι] [DecidableEq κ]

structure FairSplit (items : Finset ι) (cost : ι → ℕ) (budget : ℕ) (cut : Finset ι) (share : ℕ) :
    Prop where
  subset : cut ⊆ items
  share_eq_zero : cut = ∅ → share = 0
  cost_le : ∀ item ∈ items \ cut, cut = ∅ ∨ cost item ≤ share
  share_lt : ∀ item ∈ cut, share < cost item
  le_budget : ∑ item ∈ items \ cut, cost item + share * cut.card ≤ budget
  left : ∀ item ∈ cut, budget < ∑ item ∈ items \ cut, cost item + share * cut.card + cut.card

namespace FairSplit

variable {items cut cut' : Finset ι} {cost : ι → ℕ} {budget share share' : ℕ}

/-- What is kept by the smaller share costs less than the larger one would need. -/
theorem not_lt (h : FairSplit items cost budget cut share)
    (h' : FairSplit items cost budget cut' share') (hne : cut.Nonempty) : ¬ share < share' := by
  intro hless
  have hsubset : cut' ⊆ cut := by
    intro item hitem
    by_contra hnot
    have hle := h.cost_le item (Finset.mem_sdiff.mpr ⟨h'.subset hitem, hnot⟩)
    have hgt := h'.share_lt item hitem
    obtain hempty | hle := hle
    · exact hne.ne_empty hempty
    · omega
  obtain ⟨first, hfirst⟩ := hne
  have hleft := h.left first hfirst
  have hle := h'.le_budget
  have hcard : (cut \ cut').card + cut'.card = cut.card := Finset.card_sdiff_add_card_eq_card hsubset
  have hsplit : ∑ item ∈ items \ cut', cost item =
      ∑ item ∈ items \ cut, cost item + ∑ item ∈ cut \ cut', cost item := by
    rw [← Finset.sum_union]
    · congr 1
      ext item
      have hmem := @hsubset item
      have hcut := @h.subset item
      simp only [Finset.mem_union, Finset.mem_sdiff]
      tauto
    · exact Finset.disjoint_left.mpr fun item hitem hcut =>
        (Finset.mem_sdiff.mp hitem).2 (Finset.mem_sdiff.mp hcut).1
  have hsum : (cut \ cut').card * (share + 1) ≤ ∑ item ∈ cut \ cut', cost item := by
    rw [← smul_eq_mul]
    exact Finset.card_nsmul_le_sum _ _ _ fun item hitem =>
      h.share_lt item (Finset.mem_sdiff.mp hitem).1
  have hshare : (share + 1) * cut'.card ≤ share' * cut'.card := Nat.mul_le_mul_right _ hless
  rw [← hcard] at hleft
  rw [hsplit] at hle
  nlinarith

theorem share_eq (h : FairSplit items cost budget cut share)
    (h' : FairSplit items cost budget cut' share') (hne : cut.Nonempty) (hne' : cut'.Nonempty) :
    share = share' :=
  le_antisymm (Nat.le_of_not_lt (h'.not_lt h hne')) (Nat.le_of_not_lt (h.not_lt h' hne))

/-- The items that are cut are those that cost more than the share. -/
theorem mem_cut_iff (h : FairSplit items cost budget cut share) (hne : cut.Nonempty) {item : ι} :
    item ∈ cut ↔ item ∈ items ∧ share < cost item := by
  refine ⟨fun hitem => ⟨h.subset hitem, h.share_lt item hitem⟩, fun ⟨hitem, hless⟩ => ?_⟩
  by_contra hnot
  obtain hempty | hle := h.cost_le item (Finset.mem_sdiff.mpr ⟨hitem, hnot⟩)
  · exact hne.ne_empty hempty
  · omega

/-- Items that all fit are not cut. -/
theorem eq_empty (h : FairSplit items cost budget cut share)
    (hfits : ∑ item ∈ items, cost item ≤ budget) : cut = ∅ := by
  by_contra hne
  obtain ⟨first, hfirst⟩ := Finset.nonempty_iff_ne_empty.mpr hne
  have hleft := h.left first hfirst
  have hsum : cut.card * (share + 1) ≤ ∑ item ∈ cut, cost item := by
    rw [← smul_eq_mul]
    exact Finset.card_nsmul_le_sum _ _ _ fun item hitem => h.share_lt item hitem
  have hall := Finset.sum_sdiff (f := cost) h.subset
  nlinarith

theorem unique (h : FairSplit items cost budget cut share)
    (h' : FairSplit items cost budget cut' share') : cut = cut' ∧ share = share' := by
  rcases Finset.eq_empty_or_nonempty cut with rfl | hne
  · have hfits := h.le_budget
    rw [Finset.sdiff_empty, Finset.card_empty, Nat.mul_zero, Nat.add_zero] at hfits
    obtain rfl := h'.eq_empty hfits
    exact ⟨rfl, (h.share_eq_zero rfl).trans (h'.share_eq_zero rfl).symm⟩
  · rcases Finset.eq_empty_or_nonempty cut' with rfl | hne'
    · have hfits := h'.le_budget
      rw [Finset.sdiff_empty, Finset.card_empty, Nat.mul_zero, Nat.add_zero] at hfits
      exact absurd (h.eq_empty hfits) hne.ne_empty
    · obtain rfl := h.share_eq h' hne hne'
      refine ⟨?_, rfl⟩
      ext item
      rw [h.mem_cut_iff hne, h'.mem_cut_iff hne']

/-- Renaming the items renames the cut. -/
theorem map {f : ι ↪ κ} {cost : κ → ℕ}
    (h : FairSplit items (cost ∘ f) budget cut share) :
    FairSplit (items.map f) cost budget (cut.map f) share := by
  have hkept : items.map f \ cut.map f = (items \ cut).map f := (Finset.map_sdiff ..).symm
  refine ⟨Finset.map_subset_map.mpr h.subset, fun hempty => ?_, fun item hitem => ?_,
    fun item hitem => ?_, ?_, fun item hitem => ?_⟩
  · exact h.share_eq_zero (Finset.map_eq_empty.mp hempty)
  · rw [hkept] at hitem
    obtain ⟨source, hsource, rfl⟩ := Finset.mem_map.mp hitem
    exact (h.cost_le source hsource).imp_left Finset.map_eq_empty.mpr
  · obtain ⟨source, hsource, rfl⟩ := Finset.mem_map.mp hitem
    exact h.share_lt source hsource
  · rw [hkept, Finset.sum_map, Finset.card_map]
    exact h.le_budget
  · obtain ⟨source, hsource, rfl⟩ := Finset.mem_map.mp hitem
    rw [hkept, Finset.sum_map, Finset.card_map]
    exact h.left source hsource

end FairSplit

end Agentless
