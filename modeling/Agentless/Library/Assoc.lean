import Agentless.Library.Text

/-!
# Association lists

Lists of pairs in which a repeated key keeps the position where it is first seen and the value it
is last given.
-/

namespace Agentless.Assoc

variable {α β : Type}

theorem map_fst_modify (pairs : List (α × β)) (slot : Nat) (value : β) :
    (pairs.modify slot fun pair => (pair.1, value)).map Prod.fst = pairs.map Prod.fst := by
  induction pairs generalizing slot with
  | nil => cases slot <;> rfl
  | cons pair pairs ih =>
    cases slot with
    | zero => rfl
    | succ slot => simp [ih]

theorem map_fst_filterMap_sublist (look : α → Option β) (keys : List α) :
    List.Sublist
      ((keys.filterMap fun key => (look key).map fun value => (key, value)).map Prod.fst) keys := by
  induction keys with
  | nil => exact List.Sublist.refl _
  | cons key keys ih =>
    rw [List.filterMap_cons]
    cases look key with
    | none => exact ih.cons key
    | some value => exact ih.cons_cons key

variable [DecidableEq α]

theorem lookup_cons_eq [BEq α] [LawfulBEq α] (pair : α × β) (pairs : List (α × β)) (key : α) :
    (pair :: pairs).lookup key = if key = pair.1 then some pair.2 else pairs.lookup key := by
  rw [List.lookup_cons]
  by_cases h : key = pair.1
  · simp [h]
  · simp [h, beq_eq_false_iff_ne.mpr h]

omit [DecidableEq α] in
theorem eraseDups_concat [BEq α] [LawfulBEq α] (keys : List α) (key : α) :
    (keys ++ [key]).eraseDups = if key ∈ keys then keys.eraseDups else keys.eraseDups ++ [key] := by
  rw [List.eraseDups_append]
  by_cases h : key ∈ keys <;> simp [List.removeAll, h, List.eraseDups_cons]

omit [DecidableEq α] in
theorem nodup_eraseDups [BEq α] [LawfulBEq α] (keys : List α) : keys.eraseDups.Nodup := by
  induction keys using List.reverseRecOn with
  | nil => simp
  | append_singleton keys key ih =>
    rw [eraseDups_concat]
    split_ifs with h
    · exact ih
    · refine List.nodup_append.mpr ⟨ih, List.nodup_singleton key, ?_⟩
      intro other hother _ heq
      rw [List.mem_singleton] at heq
      rintro rfl
      exact h (heq ▸ List.mem_eraseDups.mp hother)

omit [DecidableEq α] in
theorem lookup_eq_none [BEq α] [LawfulBEq α] {pairs : List (α × β)} {key : α}
    (h : key ∉ pairs.map Prod.fst) : pairs.lookup key = none := by
  rw [List.lookup_eq_none_iff]
  intro pair hpair
  rw [bne_iff_ne]
  rintro rfl
  exact h (List.mem_map_of_mem hpair)

theorem lookup_concat [BEq α] [LawfulBEq α] {pairs : List (α × β)} {key : α}
    (h : key ∉ pairs.map Prod.fst) (value : β) (other : α) :
    (pairs ++ [(key, value)]).lookup other =
      if other = key then some value else pairs.lookup other := by
  rw [List.lookup_append, lookup_cons_eq]
  split_ifs with heq
  · rw [heq, lookup_eq_none h]
    rfl
  · simp

theorem idxOf?_concat {keys : List α} {key : α} (h : key ∉ keys) (other : α) :
    (keys ++ [key]).idxOf? other = if other = key then some keys.length else keys.idxOf? other := by
  unfold List.idxOf?
  rw [List.findIdx?_append]
  split_ifs with heq
  · have hnone : keys.findIdx? (· == key) = none := List.idxOf?_eq_none_iff.mpr h
    rw [heq, hnone]
    simp
  · simp [beq_eq_false_iff_ne.mpr (Ne.symm heq)]

theorem lookup_modify {pairs : List (α × β)} {key : α} {slot : Nat}
    (hslot : (pairs.map Prod.fst).idxOf? key = some slot) (value : β) (other : α) :
    (pairs.modify slot fun pair => (pair.1, value)).lookup other =
      if other = key then some value else pairs.lookup other := by
  induction pairs generalizing slot with
  | nil => simp at hslot
  | cons pair pairs ih =>
    rw [List.map_cons, List.idxOf?_cons] at hslot
    by_cases hkey : pair.1 = key
    · simp only [hkey, BEq.rfl, if_true, Option.some.injEq] at hslot
      subst hslot
      rw [List.modify_zero_cons, lookup_cons_eq, lookup_cons_eq, hkey]
      split_ifs <;> rfl
    · simp only [beq_eq_false_iff_ne.mpr hkey, Bool.false_eq_true, if_false] at hslot
      obtain ⟨slot', hslot', rfl⟩ := Option.map_eq_some_iff.mp hslot
      rw [List.modify_succ_cons, lookup_cons_eq, lookup_cons_eq, ih hslot']
      split_ifs with h1 h2 <;> simp_all

omit [DecidableEq α] in
theorem eraseDups_of_nodup [BEq α] [LawfulBEq α] {keys : List α} (h : keys.Nodup) :
    keys.eraseDups = keys := by
  induction keys using List.reverseRecOn with
  | nil => rfl
  | append_singleton keys key ih =>
    obtain ⟨hkeys, -, hnot⟩ := List.nodup_append.mp h
    rw [eraseDups_concat, if_neg (fun hmem => hnot key hmem key (List.mem_singleton.mpr rfl) rfl),
      ih hkeys]

theorem lookup_reverse {pairs : List (α × β)} (hnodup : (pairs.map Prod.fst).Nodup) (key : α) :
    pairs.reverse.lookup key = pairs.lookup key := by
  induction pairs with
  | nil => rfl
  | cons pair pairs ih =>
    rw [List.map_cons, List.nodup_cons] at hnodup
    rw [List.reverse_cons, List.lookup_append, ih hnodup.2, lookup_cons_eq, lookup_cons_eq]
    split_ifs with heq
    · rw [heq, lookup_eq_none hnodup.1]
      rfl
    · simp

/-- Pairs with distinct keys are their keys, each with the value that is looked up. -/
theorem eq_filterMap_lookup {pairs : List (α × β)} (hnodup : (pairs.map Prod.fst).Nodup) :
    pairs = (pairs.map Prod.fst).filterMap fun key =>
      (pairs.lookup key).map fun value => (key, value) := by
  induction pairs with
  | nil => rfl
  | cons pair pairs ih =>
    rw [List.map_cons, List.nodup_cons] at hnodup
    have hrest : ∀ key ∈ pairs.map Prod.fst, (pair :: pairs).lookup key = pairs.lookup key := by
      intro key hkey
      rw [lookup_cons_eq, if_neg]
      rintro rfl
      exact hnodup.1 hkey
    rw [List.map_cons, List.filterMap_cons, lookup_cons_eq, if_pos rfl]
    dsimp only [Option.map_some]
    congr 1
    refine (ih hnodup.2).trans (List.filterMap_congr fun key hkey => ?_)
    rw [hrest key hkey]

theorem mem_iff_lookup [BEq α] [LawfulBEq α] {pairs : List (α × β)}
    (hnodup : (pairs.map Prod.fst).Nodup) {key : α} {value : β} :
    (key, value) ∈ pairs ↔ pairs.lookup key = some value := by
  induction pairs with
  | nil => simp
  | cons pair pairs ih =>
    obtain ⟨hfirst, hrest⟩ := List.nodup_cons.mp hnodup
    rw [List.mem_cons, lookup_cons_eq]
    split_ifs with hkey
    · have habsent : (key, value) ∉ pairs := fun hmem =>
        hfirst (hkey ▸ List.mem_map_of_mem (f := Prod.fst) hmem)
      rw [or_iff_left habsent, Prod.ext_iff, Option.some_inj]
      exact ⟨fun h => h.2.symm, fun h => ⟨hkey, h.symm⟩⟩
    · rw [Prod.ext_iff, or_iff_right fun h => hkey h.1, ih hrest]

/-- Lists that hold each key once are equal up to order when they hold the same values. -/
theorem perm_iff_lookup [BEq α] [LawfulBEq α] {pairs pairs' : List (α × β)}
    (hnodup : (pairs.map Prod.fst).Nodup) (hnodup' : (pairs'.map Prod.fst).Nodup) :
    pairs.Perm pairs' ↔ ∀ key, pairs.lookup key = pairs'.lookup key := by
  rw [List.perm_ext_iff_of_nodup (List.Nodup.of_map _ hnodup) (List.Nodup.of_map _ hnodup')]
  constructor
  · intro h key
    refine Option.ext fun value => ?_
    rw [← mem_iff_lookup hnodup, ← mem_iff_lookup hnodup', h]
  · rintro h ⟨key, value⟩
    rw [mem_iff_lookup hnodup, mem_iff_lookup hnodup', h]

end Agentless.Assoc
