import Agentless.Library.Assoc
import Mathlib.Data.List.Perm.Lattice

/-!
# Groups

Items grouped by a key: the groups in the order in which their keys first appear, and each group in
the order of its items. The group of a key is a filter of the items.
-/

namespace Agentless.Groups

variable {α β κ : Type} [DecidableEq κ]

/-- Put the item behind the others of its key, or into a new group behind the other groups. -/
def place (key : α → κ) (item : α) : List (κ × List α) → List (κ × List α)
  | [] => [(key item, [item])]
  | group :: groups =>
    if group.1 = key item then (group.1, group.2 ++ [item]) :: groups
    else group :: place key item groups

def grouped (key : α → κ) (items : List α) : List (κ × List α) :=
  items.foldl (fun groups item => place key item groups) []

/-- The group of the key in a map that was filled with the groups. -/
def lookup (groups : List (κ × List α)) (key : κ) : List α := (groups.lookup key).getD []

/-- What a map that was filled with the pairs in order holds under the key: the last one. -/
def filled (pairs : List (κ × β)) (key : κ) : Option β := pairs.reverse.lookup key

theorem place_map (key : α → κ) (item : α) (held : κ → List α) {keys : List κ}
    (hnodup : keys.Nodup) :
    place key item (keys.map fun k => (k, held k)) =
      (keys.map fun k => (k, held k ++ if key item = k then [item] else [])) ++
        if key item ∈ keys then [] else [(key item, [item])] := by
  induction keys with
  | nil => rfl
  | cons k keys ih =>
    obtain ⟨hk, hrest⟩ := List.nodup_cons.mp hnodup
    rw [List.map_cons, place]
    by_cases heq : k = key item
    · subst heq
      have hothers : (keys.map fun k => (k, held k)) =
          keys.map fun k => (k, held k ++ if key item = k then [item] else []) := by
        refine List.map_congr_left fun other hother => ?_
        have hne : key item ≠ other := fun h => hk (h ▸ hother)
        simp [hne]
      simp [hothers]
    · simp [heq, Ne.symm heq, ih hrest]

/-- The keys of the items, in the order in which they first appear. -/
def keysOf (key : α → κ) (items : List α) : List κ := (items.map key).eraseDups

theorem nodup_keysOf (key : α → κ) (items : List α) : (keysOf key items).Nodup :=
  Assoc.nodup_eraseDups _

theorem mem_keysOf {key : α → κ} {items : List α} {k : κ} :
    k ∈ keysOf key items ↔ ∃ item ∈ items, key item = k := by
  rw [keysOf, List.mem_eraseDups, List.mem_map]

/-- The groups are the filters of the items by each of their keys. -/
theorem grouped_eq (key : α → κ) (items : List α) :
    grouped key items =
      (keysOf key items).map fun k => (k, items.filter fun item => key item = k) := by
  unfold grouped keysOf
  induction items using List.reverseRecOn with
  | nil => rfl
  | append_singleton items item ih =>
    have hfilter (k : κ) : (items ++ [item]).filter (fun item => decide (key item = k)) =
        items.filter (fun item => decide (key item = k)) ++
          if key item = k then [item] else [] := by
      by_cases h : key item = k <;> simp [h]
    rw [List.foldl_append, List.foldl_cons, List.foldl_nil, ih,
      place_map key item _ (Assoc.nodup_eraseDups _), List.map_append, List.map_singleton,
      Assoc.eraseDups_concat]
    simp only [hfilter, List.mem_eraseDups]
    by_cases hmem : key item ∈ items.map key
    · simp only [hmem, if_true, List.append_nil]
    · have hnone : items.filter (fun other => decide (key other = key item)) = [] := by
        rw [List.filter_eq_nil_iff]
        intro other hother heq
        exact hmem (List.mem_map.mpr ⟨other, hother, by simpa using heq⟩)
      simp [hmem, hnone]

theorem lookup_grouped (key : α → κ) (items : List α) (k : κ) :
    lookup (grouped key items) k = items.filter fun item => key item = k := by
  have hlookup (keys : List κ) : (keys.map fun k => (k, items.filter fun item =>
      decide (key item = k))).lookup k = if k ∈ keys then
        some (items.filter fun item => decide (key item = k)) else none := by
    induction keys with
    | nil => rfl
    | cons other keys ih =>
      rw [List.map_cons, Assoc.lookup_cons_eq, ih]
      by_cases h : k = other <;> simp [h]
  unfold lookup
  simp only [grouped_eq, hlookup, mem_keysOf]
  split_ifs with hmem
  · rfl
  · refine (List.filter_eq_nil_iff.mpr ?_).symm
    intro item hitem heq
    exact hmem ⟨item, hitem, of_decide_eq_true heq⟩

/-- Collecting over the groups of all keys collects over all items. -/
theorem flatMap_filter_perm (key : α → κ) {keys : List κ} (hnodup : keys.Nodup) {items : List α}
    (hkeys : ∀ item ∈ items, key item ∈ keys) :
    (keys.flatMap fun k => items.filter fun item => key item = k).Perm items := by
  induction keys generalizing items with
  | nil =>
    obtain rfl : items = [] := List.eq_nil_iff_forall_not_mem.mpr fun item hitem => by
      simpa using hkeys item hitem
    exact .refl _
  | cons k keys ih =>
    obtain ⟨hk, hrest⟩ := List.nodup_cons.mp hnodup
    have hothers : (keys.flatMap fun other => items.filter fun item => key item = other) =
        keys.flatMap fun other => (items.filter fun item => ¬ key item = k).filter
          fun item => key item = other := by
      refine List.flatMap_congr fun other hother => ?_
      rw [List.filter_filter]
      refine List.filter_congr fun item _ => ?_
      have hne : other ≠ k := fun h => hk (h ▸ hother)
      by_cases h : key item = other <;> simp [h, hne]
    rw [List.flatMap_cons, hothers]
    have hleft := @ih hrest (items.filter fun item => ¬ key item = k) fun item hitem => by
      obtain ⟨hitem, hne⟩ := List.mem_filter.mp hitem
      have := hkeys item hitem
      simp_all
    refine (hleft.append_left _).trans ?_
    simpa using List.filter_append_perm (fun item => decide (key item = k)) items

/-- A map filled with distinct keys holds what it was filled with. -/
theorem filled_eq_some_iff {pairs : List (κ × β)} (hnodup : (pairs.map Prod.fst).Nodup) {key : κ}
    {value : β} : filled pairs key = some value ↔ (key, value) ∈ pairs := by
  rw [filled, Assoc.lookup_reverse hnodup, ← Assoc.mem_iff_lookup hnodup]

/-- Items that are told apart within their lists are told apart with the index of their list. -/
theorem nodup_flatMap_zipIdx {items : List α} {within : α × Nat → List β}
    (h : ∀ item ∈ items.zipIdx, (within item).Nodup) :
    (items.zipIdx.flatMap fun item => (within item).map fun x => (item.2, x)).Nodup := by
  have hindices : (items.zipIdx.map Prod.snd).Nodup := by
    rw [List.zipIdx_map_snd]
    exact List.nodup_range'
  refine List.nodup_flatMap.mpr ⟨fun item hitem => ?_, ?_⟩
  · exact (h item hitem).map fun x y hxy => (Prod.mk.inj hxy).2
  · refine (List.pairwise_map.mp hindices).imp fun hne x hx hagain => hne ?_
    obtain ⟨y, -, rfl⟩ := List.mem_map.mp hx
    obtain ⟨z, -, heq⟩ := List.mem_map.mp hagain
    exact (Prod.mk.inj heq).1.symm

/-! ## What goes beyond an allowance -/

/-- The items that are left when each key lets a number of items pass. -/
def surplus (key : α → κ) (allowed : κ → Nat) : List α → List α
  | [] => []
  | item :: items =>
    if 0 < allowed (key item) then
      surplus key (Function.update allowed (key item) (allowed (key item) - 1)) items
    else item :: surplus key allowed items

theorem surplus_sublist (key : α → κ) (allowed : κ → Nat) (items : List α) :
    (surplus key allowed items).Sublist items := by
  induction items generalizing allowed with
  | nil => exact List.Sublist.refl _
  | cons item items ih =>
    unfold surplus
    split_ifs
    · exact (ih _).cons item
    · exact (ih _).cons_cons item

/-- A key has as many items left as it has beyond its allowance. -/
theorem countP_surplus (key : α → κ) (allowed : κ → Nat) (items : List α) (k : κ) :
    (surplus key allowed items).countP (fun item => key item = k) =
      items.countP (fun item => key item = k) - allowed k := by
  induction items generalizing allowed with
  | nil => simp [surplus]
  | cons item items ih =>
    unfold surplus
    split_ifs with hallowed
    · rw [ih, List.countP_cons]
      by_cases h : key item = k
      · subst h
        rw [Function.update_self]
        simp only [decide_true, if_true]
        omega
      · rw [Function.update_of_ne (Ne.symm h)]
        simp [h]
    · rw [List.countP_cons, List.countP_cons, ih]
      by_cases h : key item = k
      · subst h
        simp only [decide_true, if_true]
        omega
      · simp [h]

end Agentless.Groups
