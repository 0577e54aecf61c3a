import Agentless.Library.FairSplit
import Mathlib

/-!
# The budget of a view

The split of one token budget among items, and the search for the longest prefix that fits.
-/

namespace Agentless.App

/-- The tokens kept back on each cut item for the marker that announces the cut. -/
def truncationMarkerTokens : Nat := 32

/-! ## The split -/

section Allocate

variable (costs : List Nat)

/-- Takes the settled items off the budget and out of the pending ones. There is no result when the
budget would go below zero. -/
def settle : List Nat → Nat → Finset Nat → Option (Nat × Finset Nat)
  | [], remaining, pending => some (remaining, pending)
  | index :: settled, remaining, pending => do
    let cost ← costs[index]?
    if remaining < cost then none
    else settle settled (remaining - cost) (pending.erase index)

/-- Each round settles the items that fit an equal share of what is left. -/
def allocateRounds : Nat → Nat → Finset Nat → Option (Finset Nat × Nat)
  | 0, _, _ => none
  | fuel + 1, remaining, pending =>
    if pending = ∅ then some (pending, 0)
    else
      let share := remaining / pending.card
      let settled := (pending.sort (· ≤ ·)).filter fun index => costs[index]?.any (· ≤ share)
      if settled = [] then some (pending, share)
      else do
        let (remaining, pending) ← settle costs settled remaining pending
        allocateRounds fuel remaining pending

/-- The indices to cut, and the equal share each cut item gets. -/
def allocate (budget : Nat) : Option (Finset Nat × Nat) :=
  allocateRounds costs (costs.length + 1) budget (Finset.range costs.length)

end Allocate

variable {costs : List Nat} {budget remaining : Nat} {pending : Finset Nat}

def cost (costs : List Nat) (index : Nat) : Nat := costs[index]?.getD 0

theorem settle_eq {settled : List Nat} (hnodup : settled.Nodup)
    (hbound : ∀ index ∈ settled, index < costs.length)
    (hsum : (settled.map (cost costs)).sum ≤ remaining) :
    settle costs settled remaining pending =
      some (remaining - (settled.map (cost costs)).sum, pending \ settled.toFinset) := by
  induction settled generalizing remaining pending with
  | nil => simp [settle]
  | cons index settled ih =>
    obtain ⟨hnot, hnodup⟩ := List.nodup_cons.mp hnodup
    obtain ⟨hindex, hbound⟩ := List.forall_mem_cons.mp hbound
    have hcost : costs[index]? = some (cost costs index) := by
      rw [cost, List.getElem?_eq_getElem hindex, Option.getD_some]
    rw [List.map_cons, List.sum_cons] at hsum ⊢
    rw [settle, hcost]
    simp only [Option.bind_eq_bind, Option.bind_some]
    rw [if_neg (by omega), ih hnodup hbound (by omega), Nat.sub_sub, List.toFinset_cons,
      Finset.sdiff_insert, Finset.erase_sdiff_comm]

/-- What holds before every round: the settled items are paid for, and none of them costs more than
the share of the round. -/
structure Rounds (costs : List Nat) (budget remaining : Nat) (pending : Finset Nat) : Prop where
  subset : pending ⊆ Finset.range costs.length
  paid : ∑ index ∈ Finset.range costs.length \ pending, cost costs index + remaining = budget
  cost_le : ∀ index ∈ Finset.range costs.length \ pending,
    cost costs index * pending.card ≤ remaining

theorem Rounds.start (costs : List Nat) (budget : Nat) :
    Rounds costs budget budget (Finset.range costs.length) where
  subset := Finset.Subset.refl _
  paid := by simp
  cost_le := by simp

theorem Rounds.cost_le_share (h : Rounds costs budget remaining pending) (hne : pending.Nonempty)
    {index : Nat} (hindex : index ∈ Finset.range costs.length \ pending) :
    cost costs index ≤ remaining / pending.card :=
  (Nat.le_div_iff_mul_le hne.card_pos).mpr (h.cost_le index hindex)

section Round

variable {settled : Finset Nat} (hsubset : settled ⊆ pending)
  (hfits : ∀ index ∈ settled, cost costs index ≤ remaining / pending.card)

include hfits in
theorem sum_settled_le :
    ∑ index ∈ settled, cost costs index ≤ settled.card * (remaining / pending.card) := by
  rw [← smul_eq_mul]
  exact Finset.sum_le_card_nsmul _ _ _ hfits

include hsubset hfits in
/-- The settled items of a round leave at least their share to each of the others. -/
theorem share_le_left : (remaining / pending.card) * (pending \ settled).card +
    ∑ index ∈ settled, cost costs index ≤ remaining := by
  have hsum := sum_settled_le hfits
  have hcard := Finset.card_sdiff_add_card_eq_card hsubset
  have hshare := Nat.div_mul_le_self remaining pending.card
  rw [← hcard, Nat.mul_add, hcard] at hshare
  rw [Nat.mul_comm] at hsum
  omega

include hsubset hfits in
theorem Rounds.next (h : Rounds costs budget remaining pending) :
    Rounds costs budget (remaining - ∑ index ∈ settled, cost costs index) (pending \ settled) := by
  have hleft := share_le_left hsubset hfits
  have hout : Finset.range costs.length \ (pending \ settled) =
      (Finset.range costs.length \ pending) ∪ settled := by
    ext index
    have hpending := @h.subset index
    have hsettled := @hsubset index
    simp only [Finset.mem_sdiff, Finset.mem_union]
    tauto
  have hdisjoint : Disjoint (Finset.range costs.length \ pending) settled :=
    Finset.disjoint_left.mpr fun index hindex hsettled =>
      (Finset.mem_sdiff.mp hindex).2 (hsubset hsettled)
  refine ⟨Finset.sdiff_subset.trans h.subset, ?_, fun index hindex => ?_⟩
  · rw [hout, Finset.sum_union hdisjoint, ← h.paid]
    omega
  · rcases Finset.eq_empty_or_nonempty pending with rfl | hne
    · simp
    · have hshare : cost costs index ≤ remaining / pending.card := by
        rw [hout, Finset.mem_union] at hindex
        exact hindex.elim (h.cost_le_share hne) (hfits index)
      have hmul := Nat.mul_le_mul_right (pending \ settled).card hshare
      omega

end Round

theorem Rounds.fairSplit (h : Rounds costs budget remaining pending) (hne : pending.Nonempty)
    (hstop : ∀ index ∈ pending, remaining / pending.card < cost costs index) :
    FairSplit (Finset.range costs.length) (cost costs) budget pending (remaining / pending.card) where
  subset := h.subset
  share_eq_zero hempty := absurd hempty hne.ne_empty
  cost_le _ hindex := .inr (h.cost_le_share hne hindex)
  share_lt := hstop
  le_budget := by
    rw [← h.paid]
    exact Nat.add_le_add_left (Nat.div_mul_le_self _ _) _
  left _ _ := by
    rw [← h.paid, Nat.add_assoc]
    exact Nat.add_lt_add_left (Nat.lt_div_mul_add hne.card_pos) _

theorem Rounds.fairSplit_empty (h : Rounds costs budget remaining ∅) :
    FairSplit (Finset.range costs.length) (cost costs) budget ∅ 0 where
  subset := Finset.empty_subset _
  share_eq_zero _ := rfl
  cost_le _ _ := .inl rfl
  share_lt _ hindex := absurd hindex (Finset.notMem_empty _)
  le_budget := by
    rw [← h.paid, Nat.zero_mul]
    exact Nat.le_add_right _ _
  left _ hindex := absurd hindex (Finset.notMem_empty _)

/-- The rounds come to an end, and the budget never goes below zero. -/
theorem allocateRounds_spec {fuel : Nat} (h : Rounds costs budget remaining pending)
    (hfuel : pending.card < fuel) :
    ∃ cut share, allocateRounds costs fuel remaining pending = some (cut, share) ∧
      FairSplit (Finset.range costs.length) (cost costs) budget cut share := by
  induction fuel generalizing remaining pending with
  | zero => exact absurd hfuel (Nat.not_lt_zero _)
  | succ fuel ih =>
    rcases Finset.eq_empty_or_nonempty pending with rfl | hne
    · exact ⟨∅, 0, by rw [allocateRounds, if_pos rfl], h.fairSplit_empty⟩
    have hany {index : Nat} (hindex : index ∈ pending) (share : Nat) :
        costs[index]?.any (· ≤ share) = decide (cost costs index ≤ share) := by
      have hlength := Finset.mem_range.mp (h.subset hindex)
      rw [cost, List.getElem?_eq_getElem hlength, Option.any_some, Option.getD_some]
    let settled := (pending.sort (· ≤ ·)).filter fun index =>
      costs[index]?.any (· ≤ remaining / pending.card)
    have hmem (index : Nat) : index ∈ settled ↔
        index ∈ pending ∧ cost costs index ≤ remaining / pending.card := by
      rw [List.mem_filter, Finset.mem_sort]
      refine and_congr_right fun hindex => ?_
      rw [hany hindex, decide_eq_true_eq]
    rw [allocateRounds, if_neg hne.ne_empty]
    change ∃ cut share, (if settled = [] then _ else _) = _ ∧ _
    by_cases hsettled : settled = []
    · refine ⟨pending, remaining / pending.card, if_pos hsettled, h.fairSplit hne fun index hindex => ?_⟩
      by_contra hfits
      have hin := (hmem index).mpr ⟨hindex, Nat.le_of_not_lt hfits⟩
      rw [hsettled] at hin
      cases hin
    · have hnodup : settled.Nodup := (Finset.sort_nodup _ _).filter _
      have hsubset : settled.toFinset ⊆ pending := fun index hindex =>
        ((hmem index).mp (List.mem_toFinset.mp hindex)).1
      have hfits : ∀ index ∈ settled.toFinset, cost costs index ≤ remaining / pending.card :=
        fun index hindex => ((hmem index).mp (List.mem_toFinset.mp hindex)).2
      have hsum : (settled.map (cost costs)).sum = ∑ index ∈ settled.toFinset, cost costs index :=
        (List.sum_toFinset _ hnodup).symm
      have hleft := share_le_left hsubset hfits
      have hless : (pending \ settled.toFinset).card < pending.card := by
        obtain ⟨index, hindex⟩ := List.exists_mem_of_ne_nil _ hsettled
        have hin := List.mem_toFinset.mpr hindex
        exact Finset.card_lt_card (Finset.sdiff_ssubset hsubset ⟨index, hin⟩)
      have hbound : ∀ index ∈ settled, index < costs.length := fun index hindex =>
        Finset.mem_range.mp (h.subset ((hmem index).mp hindex).1)
      rw [if_neg hsettled, settle_eq hnodup hbound (by omega), hsum]
      exact ih (h.next hsubset hfits) (by omega)

theorem allocate_fairSplit (costs : List Nat) (budget : Nat) :
    ∃ cut share, allocate costs budget = some (cut, share) ∧
      FairSplit (Finset.range costs.length) (cost costs) budget cut share :=
  allocateRounds_spec (.start costs budget) (by rw [Finset.card_range]; exact Nat.lt_succ_self _)

/-- The costs in another order. -/
def permuted (costs : List Nat) (σ : Equiv.Perm (Fin costs.length)) : List Nat :=
  List.ofFn fun index => costs.get (σ index)

/-- A permutation of the indices, which leaves the numbers past the end in place. -/
def onIndices (costs : List Nat) (σ : Equiv.Perm (Fin costs.length)) : Equiv.Perm ℕ :=
  σ.extendDomain Fin.equivSubtype

section Permuted

variable (costs : List Nat) (σ : Equiv.Perm (Fin costs.length))

theorem onIndices_val (index : Fin costs.length) : onIndices costs σ index = σ index :=
  Equiv.Perm.extendDomain_apply_image σ Fin.equivSubtype index

theorem onIndices_of_le {index : Nat} (h : costs.length ≤ index) : onIndices costs σ index = index :=
  Equiv.Perm.extendDomain_apply_not_subtype _ _ (Nat.not_lt.mpr h)

theorem length_permuted : (permuted costs σ).length = costs.length := List.length_ofFn

theorem cost_permuted : cost (permuted costs σ) = cost costs ∘ onIndices costs σ := by
  funext index
  by_cases hindex : index < costs.length
  · rw [Function.comp_apply, onIndices_val costs σ ⟨index, hindex⟩, cost, cost, permuted,
      List.getElem?_ofFn, dif_pos hindex, List.getElem?_eq_getElem (σ ⟨index, hindex⟩).isLt]
    rfl
  · have hle := Nat.le_of_not_lt hindex
    rw [Function.comp_apply, onIndices_of_le costs σ hle, cost, cost, List.getElem?_eq_none hle,
      List.getElem?_eq_none (by rwa [length_permuted])]

theorem range_map_onIndices :
    (Finset.range costs.length).map (onIndices costs σ).toEmbedding = Finset.range costs.length := by
  refine Finset.eq_of_subset_of_card_le (fun index hindex => ?_) (by rw [Finset.card_map])
  obtain ⟨source, hsource, rfl⟩ := Finset.mem_map.mp hindex
  rw [Equiv.coe_toEmbedding, onIndices_val costs σ ⟨source, Finset.mem_range.mp hsource⟩]
  exact Finset.mem_range.mpr (σ _).isLt

end Permuted

/-- The budget is split fairly, and the order of the costs does not matter. -/
theorem allocate_fair (costs : List Nat) (budget : Nat) :
    ∃ cut share, allocate costs budget = some (cut, share) ∧
      FairSplit (Finset.range costs.length) (cost costs) budget cut share ∧
      ∀ σ : Equiv.Perm (Fin costs.length), ∃ cut', allocate (permuted costs σ) budget = some (cut', share) ∧
        ∀ index : Fin costs.length, (index : Nat) ∈ cut' ↔ (σ index : Nat) ∈ cut := by
  obtain ⟨cut, share, hallocate, hfair⟩ := allocate_fairSplit costs budget
  refine ⟨cut, share, hallocate, hfair, fun σ => ?_⟩
  obtain ⟨cut', share', hpermuted, hfair'⟩ := allocate_fairSplit (permuted costs σ) budget
  rw [cost_permuted, length_permuted] at hfair'
  have hmap := FairSplit.map (f := (onIndices costs σ).toEmbedding) hfair'
  rw [range_map_onIndices] at hmap
  obtain ⟨rfl, rfl⟩ := hfair.unique hmap
  refine ⟨cut', hpermuted, fun index => ?_⟩
  rw [← onIndices_val, ← Equiv.coe_toEmbedding, Finset.mem_map']

/-! ## The longest prefix that fits -/

/-- The halving loop of the search. -/
def fittingFrom (fits : Nat → Bool) : Nat → Nat → Nat → Nat
  | 0, low, _ => low
  | fuel + 1, low, high =>
    if low < high then
      let middle := (low + high + 1) / 2
      if fits middle then fittingFrom fits fuel middle high
      else fittingFrom fits fuel low (middle - 1)
    else low

/-- The largest count from `low` through `high` that fits, or `low` when none fits. It has to hold
for every count below one it holds for. -/
def longestFitting (low high : Nat) (fits : Nat → Bool) : Nat := fittingFrom fits (high - low) low high

/-! ## What the halving loop asks -/

/-- `count` is the largest count from `low` through `high` that fits, or `low` when none fits. -/
structure LargestFit (fits : Nat → Bool) (low high count : Nat) : Prop where
  low_le : low ≤ count
  le_high : count ≤ high
  fits_self : count ≠ low → fits count = true
  above : ∀ n, count < n → n ≤ high → fits n = false

/-- The counts that the halving loop measures when it ends at `target`. -/
def probesFrom (target : Nat) : Nat → Nat → Nat → List Nat
  | 0, _, _ => []
  | fuel + 1, low, high =>
    if low < high then
      let middle := (low + high + 1) / 2
      middle :: (if middle ≤ target then probesFrom target fuel middle high
        else probesFrom target fuel low (middle - 1))
    else []

def probes (low high target : Nat) : List Nat := probesFrom target (high - low) low high

section Halving
variable {fits : Nat → Bool} {low high count fuel target : Nat}

theorem exists_largestFit (hlow : low ≤ high) : ∃ count, LargestFit fits low high count := by
  induction high, hlow using Nat.le_induction with
  | base => exact ⟨low, ⟨le_refl _, le_refl _, fun h => absurd rfl h, fun n _ _ => by omega⟩⟩
  | succ high hlow ih =>
    cases hfit : fits (high + 1) with
    | true => exact ⟨high + 1, ⟨by omega, le_refl _, fun _ => hfit, fun n _ _ => by omega⟩⟩
    | false =>
      obtain ⟨count, hcount⟩ := ih
      refine ⟨count, ⟨hcount.low_le, hcount.le_high.trans (by omega), hcount.fits_self, ?_⟩⟩
      intro n hn hhigh
      rcases Nat.lt_or_ge high n with hlast | hbelow
      · rwa [show n = high + 1 by omega]
      · exact hcount.above n hn hbelow

theorem fittingFrom_bounds (fits : Nat → Bool) (fuel : Nat) (hlow : low ≤ high) :
    low ≤ fittingFrom fits fuel low high ∧ fittingFrom fits fuel low high ≤ high := by
  induction fuel generalizing low high with
  | zero => exact ⟨le_refl _, hlow⟩
  | succ fuel ih =>
    rw [fittingFrom]
    by_cases hless : low < high
    · rw [if_pos hless]
      dsimp only
      split
      · have := @ih ((low + high + 1) / 2) high (by omega)
        omega
      · have := @ih low ((low + high + 1) / 2 - 1) (by omega)
        omega
    · rw [if_neg hless]
      exact ⟨le_refl _, hlow⟩

/-- The loop ends at `target` exactly when each count it measures on the way there fits if and only
if it is not above `target`. -/
theorem fittingFrom_eq_iff (hfuel : high - low ≤ fuel) (hlow : low ≤ target) (hhigh : target ≤ high) :
    fittingFrom fits fuel low high = target ↔
      ∀ probe ∈ probesFrom target fuel low high, fits probe = decide (probe ≤ target) := by
  induction fuel generalizing low high with
  | zero =>
    rw [fittingFrom, probesFrom]
    exact ⟨fun _ _ h => absurd h List.not_mem_nil, fun _ => by omega⟩
  | succ fuel ih =>
    rw [fittingFrom, probesFrom]
    by_cases hless : low < high
    · rw [if_pos hless, if_pos hless]
      dsimp only
      have habove := @fittingFrom_bounds ((low + high + 1) / 2) high fits fuel (by omega)
      have hbelow := @fittingFrom_bounds low ((low + high + 1) / 2 - 1) fits fuel (by omega)
      rw [List.forall_mem_cons]
      by_cases htarget : (low + high + 1) / 2 ≤ target
      · rw [if_pos htarget, decide_eq_true htarget]
        cases hfit : fits ((low + high + 1) / 2) with
        | true => simpa using ih (by omega) htarget hhigh
        | false =>
          rw [if_neg Bool.false_ne_true]
          exact ⟨fun h => by omega, fun h => absurd h.1 Bool.false_ne_true⟩
      · rw [if_neg htarget, decide_eq_false htarget]
        cases hfit : fits ((low + high + 1) / 2) with
        | true =>
          rw [if_pos rfl]
          exact ⟨fun h => by omega, fun h => absurd h.1.symm Bool.false_ne_true⟩
        | false => simpa using ih (by omega) hlow (by omega)
    · rw [if_neg hless, if_neg hless]
      exact ⟨fun _ _ h => absurd h List.not_mem_nil, fun _ => by omega⟩

theorem probesFrom_bounds {probe : Nat} (h : probe ∈ probesFrom target fuel low high) :
    low < probe ∧ probe ≤ high := by
  induction fuel generalizing low high with
  | zero => exact absurd h List.not_mem_nil
  | succ fuel ih =>
    rw [probesFrom] at h
    by_cases hless : low < high
    · rw [if_pos hless] at h
      dsimp only at h
      rcases List.mem_cons.mp h with rfl | hrest
      · omega
      · split at hrest
        · have := ih hrest
          omega
        · have := ih hrest
          omega
    · rw [if_neg hless] at h
      exact absurd h List.not_mem_nil

/-- The search finds the largest count that fits exactly when every count it measures below it
fits. -/
theorem longestFitting_largest_iff :
    LargestFit fits low high (longestFitting low high fits) ↔
      ∃ count, LargestFit fits low high count ∧
        ∀ probe ∈ probes low high count, probe ≤ count → fits probe = true := by
  have heq : ∀ {count}, LargestFit fits low high count →
      (longestFitting low high fits = count ↔
        ∀ probe ∈ probes low high count, probe ≤ count → fits probe = true) := by
    intro count hcount
    rw [longestFitting, fittingFrom_eq_iff (le_refl _) hcount.low_le hcount.le_high]
    refine forall₂_congr fun probe hprobe => ?_
    have hbounds := probesFrom_bounds hprobe
    by_cases hle : probe ≤ count
    · simp [hle]
    · simp [hle, hcount.above probe (by omega) hbounds.2]
  constructor
  · intro h
    exact ⟨_, h, (heq h).mp rfl⟩
  · rintro ⟨count, hcount, hprobes⟩
    rwa [(heq hcount).mpr hprobes]

theorem longestFitting_bounds (fits : Nat → Bool) (hlow : low ≤ high) :
    low ≤ longestFitting low high fits ∧ longestFitting low high fits ≤ high :=
  fittingFrom_bounds fits _ hlow

/-- Counts that fit without a gap are enough. -/
theorem longestFitting_largest (hlow : low ≤ high)
    (hfits : ∀ m n, low < m → m ≤ n → n ≤ high → fits n = true → fits m = true) :
    LargestFit fits low high (longestFitting low high fits) := by
  obtain ⟨count, hcount⟩ : ∃ count, LargestFit fits low high count := exists_largestFit hlow
  refine longestFitting_largest_iff.mpr ⟨count, hcount, fun probe hprobe hle => ?_⟩
  have hbounds := probesFrom_bounds hprobe
  exact hfits probe count hbounds.1 hle hcount.le_high (hcount.fits_self (by omega))

end Halving

end Agentless.App
