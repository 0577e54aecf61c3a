import Mathlib.Data.List.Perm.Lattice
import Mathlib.Data.List.Nodup

/-!
# Partial matchings

A partial matching pairs elements of two lists, each at most once. Matchings are built up by zipping
two lists, by a matching of what another one left over, and by a matching within each group.
-/

namespace Agentless

variable {α β κ : Type}

/-! ## Picking elements -/

/-- Elements of a list, each at most once. -/
structure Picks (picked items : List α) : Prop where
  nodup : picked.Nodup
  subset : picked ⊆ items

namespace Picks

variable {picked more items : List α}

/-- The elements that are not picked. -/
def others [DecidableEq α] (picked items : List α) : List α := items.filter (· ∉ picked)

theorem take (h : items.Nodup) (count : Nat) : Picks (items.take count) items where
  nodup := h.sublist (List.take_sublist count items)
  subset := List.take_subset count items

theorem of_perm {items' : List α} (h : Picks picked items) (hperm : items.Perm items') :
    Picks picked items' :=
  ⟨h.nodup, fun _ hitem => hperm.mem_iff.mp (h.subset hitem)⟩

theorem append [DecidableEq α] (h : Picks picked items) (hmore : Picks more (others picked items)) :
    Picks (picked ++ more) items where
  nodup := by
    refine List.Nodup.append h.nodup hmore.nodup fun item hitem hagain => ?_
    exact of_decide_eq_true (List.mem_filter.mp (hmore.subset hagain)).2 hitem
  subset := by
    refine List.append_subset.mpr ⟨h.subset, fun item hitem => ?_⟩
    exact (List.mem_filter.mp (hmore.subset hitem)).1

/-- The picked elements and the others are all elements. -/
theorem append_others_perm [DecidableEq α] (h : Picks picked items) (hnodup : items.Nodup) :
    (picked ++ others picked items).Perm items := by
  have hall : (picked ++ others picked items).Nodup := by
    refine List.Nodup.append h.nodup (hnodup.filter _) fun item hitem hagain => ?_
    exact of_decide_eq_true (List.mem_filter.mp hagain).2 hitem
  refine (List.perm_ext_iff_of_nodup hall hnodup).mpr fun item => ?_
  rw [List.mem_append, others, List.mem_filter, decide_eq_true_iff]
  constructor
  · rintro (hmem | ⟨hmem, -⟩)
    · exact h.subset hmem
    · exact hmem
  · intro hmem
    exact (em _).imp id fun hnot => ⟨hmem, hnot⟩

/-- What is picked from the groups of distinct keys is picked from all elements. -/
theorem flatMap [DecidableEq κ] {key : α → κ} {keys : List κ} {within : κ → List α}
    (hnodup : keys.Nodup)
    (h : ∀ k ∈ keys, Picks (within k) (items.filter fun item => key item = k)) :
    Picks (keys.flatMap within) items where
  nodup := by
    have hkey (k : κ) (hk : k ∈ keys) (item : α) (hitem : item ∈ within k) : key item = k :=
      of_decide_eq_true (List.mem_filter.mp ((h k hk).subset hitem)).2
    refine List.nodup_flatMap.mpr ⟨fun k hk => (h k hk).nodup, ?_⟩
    refine hnodup.imp_of_mem fun {k other} hk hother hne item hitem hagain => hne ?_
    rw [← hkey k hk item hitem, ← hkey other hother item hagain]
  subset item hitem := by
    obtain ⟨k, hk, hitem⟩ := List.mem_flatMap.mp hitem
    exact (List.mem_filter.mp ((h k hk).subset hitem)).1

end Picks

/-! ## Pairing elements -/

structure Matching (pairs : List (α × β)) (lefts : List α) (rights : List β) : Prop where
  left : Picks (pairs.map Prod.fst) lefts
  right : Picks (pairs.map Prod.snd) rights

namespace Matching

variable {pairs more : List (α × β)} {lefts : List α} {rights : List β}

/-- One of the two sides is used up. -/
def Maximal (pairs : List (α × β)) (lefts : List α) (rights : List β) : Prop :=
  lefts ⊆ pairs.map Prod.fst ∨ rights ⊆ pairs.map Prod.snd

theorem map_fst_zip (lefts : List α) (rights : List β) :
    (lefts.zip rights).map Prod.fst = lefts.take rights.length := by
  induction lefts generalizing rights with
  | nil => simp
  | cons left lefts ih =>
    cases rights with
    | nil => rfl
    | cons right rights => simp [ih]

theorem map_snd_zip (lefts : List α) (rights : List β) :
    (lefts.zip rights).map Prod.snd = rights.take lefts.length := by
  induction lefts generalizing rights with
  | nil => simp
  | cons left lefts ih =>
    cases rights with
    | nil => rfl
    | cons right rights => simp [ih]

theorem zip (hleft : lefts.Nodup) (hright : rights.Nodup) :
    Matching (lefts.zip rights) lefts rights where
  left := by
    rw [map_fst_zip]
    exact Picks.take hleft _
  right := by
    rw [map_snd_zip]
    exact Picks.take hright _

theorem maximal_zip (lefts : List α) (rights : List β) :
    Maximal (lefts.zip rights) lefts rights := by
  unfold Maximal
  rw [map_fst_zip, map_snd_zip]
  rcases Nat.le_total lefts.length rights.length with h | h
  · rw [List.take_of_length_le h]
    exact .inl (List.Subset.refl lefts)
  · rw [List.take_of_length_le h]
    exact .inr (List.Subset.refl rights)

theorem append [DecidableEq α] [DecidableEq β] (h : Matching pairs lefts rights)
    (hmore : Matching more (Picks.others (pairs.map Prod.fst) lefts)
      (Picks.others (pairs.map Prod.snd) rights)) :
    Matching (pairs ++ more) lefts rights where
  left := by
    rw [List.map_append]
    exact h.left.append hmore.left
  right := by
    rw [List.map_append]
    exact h.right.append hmore.right

/-- A matching is maximal when what it adds to another one leaves nothing on one side. -/
theorem Maximal.append [DecidableEq α] [DecidableEq β]
    (h : Maximal more (Picks.others (pairs.map Prod.fst) lefts)
      (Picks.others (pairs.map Prod.snd) rights)) :
    Maximal (pairs ++ more) lefts rights := by
  unfold Maximal at *
  rw [List.map_append, List.map_append]
  refine h.imp (fun hall left hleft => ?_) fun hall right hright => ?_
  · by_cases hfirst : left ∈ pairs.map Prod.fst
    · exact List.mem_append_left _ hfirst
    · exact List.mem_append_right _ (hall (List.mem_filter.mpr ⟨hleft, decide_eq_true hfirst⟩))
  · by_cases hfirst : right ∈ pairs.map Prod.snd
    · exact List.mem_append_left _ hfirst
    · exact List.mem_append_right _ (hall (List.mem_filter.mpr ⟨hright, decide_eq_true hfirst⟩))

section Groups

variable [DecidableEq κ] {leftKey : α → κ} {rightKey : β → κ} {keys : List κ}
  {within : κ → List (α × β)}

/-- Matchings within the groups of distinct keys are a matching of all elements. -/
theorem flatMap (hnodup : keys.Nodup)
    (h : ∀ key ∈ keys, Matching (within key) (lefts.filter fun left => leftKey left = key)
      (rights.filter fun right => rightKey right = key)) :
    Matching (keys.flatMap within) lefts rights where
  left := by
    rw [List.map_flatMap]
    exact Picks.flatMap hnodup fun key hkey => (h key hkey).left
  right := by
    rw [List.map_flatMap]
    exact Picks.flatMap hnodup fun key hkey => (h key hkey).right

/-- The two elements of a pair have the key of their group. -/
theorem key_of_mem_flatMap
    (h : ∀ key ∈ keys, Matching (within key) (lefts.filter fun left => leftKey left = key)
      (rights.filter fun right => rightKey right = key)) {pair : α × β}
    (hpair : pair ∈ keys.flatMap within) : leftKey pair.1 = rightKey pair.2 := by
  obtain ⟨key, hkey, hpair⟩ := List.mem_flatMap.mp hpair
  have hleft := (List.mem_filter.mp ((h key hkey).left.subset (List.mem_map_of_mem hpair))).2
  have hright := (List.mem_filter.mp ((h key hkey).right.subset (List.mem_map_of_mem hpair))).2
  rw [decide_eq_true_iff] at hleft hright
  rw [hleft, hright]

end Groups

end Matching

end Agentless
