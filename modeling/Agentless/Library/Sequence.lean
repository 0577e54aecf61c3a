import Agentless.Library.Text

/-!
# Sequences

Facts on lists that the tables and the plans rest on: selecting from an enumerated list, and
sorting by a key that is already strictly increasing in another order of the same elements.
-/

namespace Agentless.Sequence

variable {α β γ : Type}

/-- Two selections that never take the same element, one after the other, are the joint
selection up to order. -/
theorem filterMap_append_perm (f g : α → Option β) (items : List α)
    (hdisjoint : ∀ item ∈ items, (f item).isSome → g item = none) :
    (items.filterMap f ++ items.filterMap g).Perm
      (items.filterMap fun item => (f item).or (g item)) := by
  induction items with
  | nil => simp
  | cons item items ih =>
    have ih := ih fun other hother => hdisjoint other (List.mem_cons_of_mem _ hother)
    cases hf : f item with
    | some a =>
      have hg := hdisjoint item List.mem_cons_self (by simp [hf])
      simpa [List.filterMap_cons, hf, hg] using ih
    | none =>
      cases hg : g item with
      | none => simpa [List.filterMap_cons, hf, hg] using ih
      | some b =>
        simp only [List.filterMap_cons, hf, hg, Option.none_or]
        exact List.perm_middle.trans (ih.cons b)

/-- Sorting by a key gives the order in which the keys strictly increase. -/
theorem insertionSort_eq_of_perm {κ : Type} [LinearOrder κ] (key : β → κ) {given sorted : List β}
    (hperm : given.Perm sorted) (hsorted : sorted.Pairwise fun a b => key a < key b) :
    given.insertionSort (fun a b => key a ≤ key b) = sorted := by
  have : Std.Total (fun a b : β => key a ≤ key b) := ⟨fun a b => le_total (key a) (key b)⟩
  have : IsTrans β (fun a b => key a ≤ key b) := ⟨fun _ _ _ => le_trans⟩
  have hnodup : (sorted.map key).Nodup :=
    List.pairwise_map.mpr (hsorted.imp fun h => ne_of_lt h)
  have hsame : (given.insertionSort fun a b => key a ≤ key b).Perm sorted :=
    (List.perm_insertionSort _ _).trans hperm
  refine hsame.eq_of_pairwise ?_ (List.pairwise_insertionSort _ _)
    (hsorted.imp fun h => le_of_lt h)
  intro a b ha hb hab hba
  exact List.inj_on_of_nodup_map hnodup (hsame.mem_iff.mp ha) hb (le_antisymm hab hba)

/-- What is selected from an enumerated list without its positions is selected from the list. -/
theorem filterMap_zipIdx (f : α → Option β) (items : List α) (start : Nat) :
    (items.zipIdx start).filterMap (fun item => f item.1) = items.filterMap f := by
  induction items generalizing start with
  | nil => rfl
  | cons item items ih =>
    simp only [List.zipIdx_cons, List.filterMap_cons, ih]

/-- A selection that keeps each element's position keeps the positions strictly increasing. -/
theorem pairwise_filterMap_zipIdx (f : α → Option β) (items : List α) (start : Nat) :
    ((items.zipIdx start).filterMap fun item => (f item.1).map fun value => (item.2, value)).Pairwise
      (fun a b => a.1 < b.1) := by
  have hpositions : (items.zipIdx start).Pairwise fun a b => a.2 < b.2 := by
    rw [← List.pairwise_map (f := Prod.snd) (R := (· < ·)), List.zipIdx_map_snd]
    exact List.pairwise_lt_range'
  refine List.pairwise_filterMap.mpr (hpositions.imp ?_)
  intro a b hab c hc d hd
  obtain ⟨_, -, rfl⟩ := Option.map_eq_some_iff.mp hc
  obtain ⟨_, -, rfl⟩ := Option.map_eq_some_iff.mp hd
  exact hab

/-- The keys of what is selected are the keys of the elements it is selected from. -/
theorem map_filterMap_eq {key : α → γ} {key' : β → γ} {f : α → Option β} {p : α → Bool}
    {items : List α} (hkey : ∀ item ∈ items, ∀ value, f item = some value → key' value = key item)
    (hp : ∀ item ∈ items, (f item).isSome = p item) :
    (items.filterMap f).map key' = (items.filter p).map key := by
  induction items with
  | nil => simp
  | cons item items ih =>
    have ih := ih (fun other hother => hkey other (List.mem_cons_of_mem _ hother))
      fun other hother => hp other (List.mem_cons_of_mem _ hother)
    have hitem := hp item List.mem_cons_self
    cases hf : f item with
    | none =>
      have hnot : p item = false := by rw [← hitem, hf]; rfl
      simpa [List.filterMap_cons, hf, hnot] using ih
    | some value =>
      have hyes : p item = true := by rw [← hitem, hf]; rfl
      simpa [List.filterMap_cons, hf, hyes, hkey item List.mem_cons_self value hf] using ih

theorem map_filterMap_sublist {key : α → γ} {key' : β → γ} {f : α → Option β} {items : List α}
    (hkey : ∀ item ∈ items, ∀ value, f item = some value → key' value = key item) :
    ((items.filterMap f).map key').Sublist (items.map key) := by
  rw [map_filterMap_eq (p := fun item => (f item).isSome) hkey fun _ _ => rfl]
  exact List.filter_sublist.map key

theorem exists_mem_modifyHead {p : α → Prop} {f : α → α} {items : List α}
    (hf : ∀ item ∈ items, p item → p (f item)) (h : ∃ item ∈ items, p item) :
    ∃ item ∈ items.modifyHead f, p item := by
  cases items with
  | nil => exact h
  | cons first items =>
    obtain ⟨item, hitem, hp⟩ := h
    rcases List.mem_cons.mp hitem with rfl | hitem
    · exact ⟨f item, by simp, hf item List.mem_cons_self hp⟩
    · exact ⟨item, by simp [hitem], hp⟩

theorem exists_mem_modifyLast {p : α → Prop} {f : α → α} {items : List α}
    (hf : ∀ item ∈ items, p item → p (f item)) (h : ∃ item ∈ items, p item) :
    ∃ item ∈ items.modifyLast f, p item := by
  rcases List.eq_nil_or_concat items with rfl | ⟨items, last, rfl⟩
  · exact h
  · rw [List.concat_eq_append] at hf h ⊢
    rw [List.modifyLast_concat]
    obtain ⟨item, hitem, hp⟩ := h
    rcases List.mem_append.mp hitem with hmem | hmem
    · exact ⟨item, by simp [hmem], hp⟩
    · obtain rfl := List.mem_singleton.mp hmem
      exact ⟨f item, by simp, hf item hitem hp⟩

/-- Pairing each element with its own image is a map. -/
theorem zip_zip_map (items : List (α × β)) (f : α → γ) :
    ((items.map Prod.fst).zip (items.map Prod.snd)).zip ((items.map Prod.fst).map f) =
      items.map fun item => (item, f item.1) := by
  induction items with
  | nil => rfl
  | cons item items ih => simpa using ih

/-- Lists that agree up to the first element with a property agree before and after it. -/
theorem append_inj_of_head {opens : α → Bool} {body body' rest rest' : List α}
    (hbody : ∀ x ∈ body, opens x = false) (hbody' : ∀ x ∈ body', opens x = false)
    (hrest : rest.head?.all opens) (hrest' : rest'.head?.all opens)
    (h : body ++ rest = body' ++ rest') : body = body' ∧ rest = rest' := by
  have hspan {xs ys : List α} (hxs : ∀ x ∈ xs, opens x = false) (hys : ys.head?.all opens) :
      (xs ++ ys).takeWhile (!opens ·) = xs := by
    rw [List.takeWhile_append_of_pos (by simpa using hxs)]
    cases ys with
    | nil => simp
    | cons y ys => simp_all
  have hsame : body = body' := by rw [← hspan hbody hrest, h, hspan hbody' hrest']
  subst hsame
  exact ⟨rfl, List.append_cancel_left h⟩

/-- No piece of a list that is cut at an element holds the element. -/
theorem notMem_of_mem_splitOn [BEq α] [LawfulBEq α] {cut : α} {items piece : List α}
    (h : piece ∈ items.splitOn cut) : cut ∉ piece := by
  induction items generalizing piece with
  | nil => simp_all
  | cons item items ih =>
    rw [List.splitOn_cons_eq_if_modifyHead] at h
    split at h
    · rcases List.mem_cons.mp h with rfl | h
      · exact List.not_mem_nil
      · exact ih h
    · rename_i hitem
      obtain ⟨first, rest, hsplit⟩ := List.exists_cons_of_ne_nil (List.splitOn_ne_nil cut items)
      rw [hsplit] at ih h
      rcases List.mem_cons.mp h with rfl | h
      · have hne : cut ≠ item := fun heq => hitem (beq_iff_eq.mpr heq.symm)
        simp [hne, ih List.mem_cons_self]
      · exact ih (List.mem_cons_of_mem _ h)

theorem mem_intercalate {separator piece : List α} {pieces : List (List α)} {item : α}
    (hpiece : piece ∈ pieces) (hitem : item ∈ piece) : item ∈ separator.intercalate pieces := by
  induction pieces with
  | nil => cases hpiece
  | cons first pieces ih =>
    rcases eq_or_ne pieces [] with rfl | hne
    · simp_all
    · rw [List.intercalate_cons_of_ne_nil hne]
      rcases List.mem_cons.mp hpiece with rfl | hpiece
      · simp [hitem]
      · simp [ih hpiece]

/-- A list starts with a piece and a cut when the piece is the first of several. -/
theorem append_singleton_prefix_iff [BEq α] [LawfulBEq α] {cut : α} {piece items : List α}
    (h : cut ∉ piece) :
    piece ++ [cut] <+: items ↔ ∃ rest, rest ≠ [] ∧ items.splitOn cut = piece :: rest := by
  constructor
  · rintro ⟨after, rfl⟩
    refine ⟨after.splitOn cut, List.splitOn_ne_nil cut after, ?_⟩
    rw [List.append_assoc, List.singleton_append, List.splitOn_append_cons_self,
      List.splitOn_eq_singleton h, List.singleton_append]
  · rintro ⟨rest, hrest, hsplit⟩
    rw [← @List.intercalate_splitOn _ items _ _ cut, hsplit,
      List.intercalate_cons_of_ne_nil hrest]
    simp

/-- Selecting by position from all positions selects from the list. -/
theorem filterMap_range_getElem? (f : α → Option β) (items : List α) :
    ((List.range items.length).filterMap fun position => items[position]?.bind f) =
      items.filterMap f := by
  induction items using List.reverseRecOn with
  | nil => rfl
  | append_singleton items item ih =>
    have hearlier : ((List.range items.length).filterMap fun position =>
        (items ++ [item])[position]?.bind f) = items.filterMap f := by
      rw [← ih]
      refine List.filterMap_congr fun position hposition => ?_
      rw [List.getElem?_append_left (List.mem_range.mp hposition)]
    rw [List.length_append, List.length_singleton, List.range_succ, List.filterMap_append, hearlier,
      List.filterMap_append]
    simp [List.filterMap_cons]

/-- Pairing a list with another one of its length does not change what depends on the first. -/
theorem flatMap_zip_eq {items : List α} {others : List β} (hlength : others.length = items.length)
    {f : α × β → List γ} {g : α → List γ}
    (h : ∀ (position : Nat) item other, items[position]? = some item → others[position]? = some other →
      f (item, other) = g item) :
    (items.zip others).flatMap f = items.flatMap g := by
  induction items generalizing others with
  | nil => rfl
  | cons item items ih =>
    cases others with
    | nil => cases hlength
    | cons other others =>
      rw [List.zip_cons_cons, List.flatMap_cons, List.flatMap_cons, h 0 item other rfl rfl,
        ih (Nat.succ.inj hlength) fun position => h (position + 1)]

/-- Dropping what repeats its neighbour drops no value. -/
theorem mem_destutter_ne [DecidableEq α] {items : List α} {item : α} :
    item ∈ items.destutter (· ≠ ·) ↔ item ∈ items := by
  cases items with
  | nil => rfl
  | cons first items =>
    rw [List.destutter_cons']
    induction items generalizing first with
    | nil => simp
    | cons second items ih =>
      rw [List.destutter'_cons]
      split_ifs with h
      · rw [List.mem_cons, ih, ← List.mem_cons]
      · rw [ih, not_not.mp h]
        simp

theorem pairwise_lt_destutter_insertionSort [LinearOrder α]
    [DecidableRel ((· ≠ ·) : α → α → Prop)] (items : List α) :
    ((items.insertionSort (· ≤ ·)).destutter (· ≠ ·)).Pairwise (· < ·) := by
  have hsorted := List.pairwise_insertionSort (· ≤ ·) items
  have hdistinct := List.isChain_destutter (· ≠ ·) (items.insertionSort (· ≤ ·))
  have hless := hsorted.sublist (List.destutter_sublist (· ≠ ·) (items.insertionSort (· ≤ ·)))
  refine List.isChain_iff_pairwise.mp (List.isChain_iff_getElem.mpr fun i hi => ?_)
  exact lt_of_le_of_ne (hless.isChain.getElem i hi) (hdistinct.getElem i hi)

/-- A value of lists that share none is in exactly one of them. -/
theorem countP_mem_eq_one [DecidableEq α] {lists : List (List α)} (hnodup : lists.flatten.Nodup)
    {item : α} (hitem : item ∈ lists.flatten) : lists.countP (item ∈ ·) = 1 := by
  induction lists with
  | nil => cases hitem
  | cons first lists ih =>
    rw [List.flatten_cons, List.nodup_append] at hnodup
    obtain ⟨-, hrest, hdisjoint⟩ := hnodup
    rw [List.countP_cons]
    by_cases hfirst : item ∈ first
    · have hnone : lists.countP (item ∈ ·) = 0 := by
        refine List.countP_eq_zero.mpr fun list hlist hmem => ?_
        have hmem : item ∈ list := by simpa using hmem
        exact hdisjoint item hfirst item (List.mem_flatten_of_mem hlist hmem) rfl
      simp [hnone, hfirst]
    · have hmem : item ∈ lists.flatten := by simpa [hfirst] using hitem
      simp [ih hrest hmem, hfirst]

theorem length_filterMap_of_isSome {f : α → Option β} {items : List α}
    (h : ∀ item ∈ items, (f item).isSome) : (items.filterMap f).length = items.length := by
  induction items with
  | nil => rfl
  | cons item items ih =>
    obtain ⟨value, hvalue⟩ := Option.isSome_iff_exists.mp (h item List.mem_cons_self)
    rw [List.filterMap_cons, hvalue, List.length_cons, List.length_cons,
      ih fun other hother => h other (List.mem_cons_of_mem _ hother)]

/-- A selection that takes every element keeps the positions. -/
theorem getElem?_filterMap_of_isSome {f : α → Option β} {items : List α}
    (h : ∀ item ∈ items, (f item).isSome) (i : Nat) : (items.filterMap f)[i]? = items[i]?.bind f := by
  induction items generalizing i with
  | nil => simp
  | cons item items ih =>
    obtain ⟨value, hvalue⟩ := Option.isSome_iff_exists.mp (h item List.mem_cons_self)
    rw [List.filterMap_cons, hvalue]
    cases i with
    | zero => simp [hvalue]
    | succ i => simpa using ih (fun other hother => h other (List.mem_cons_of_mem _ hother)) i

theorem idxOf?_reverse_append [BEq α] [LawfulBEq α] {item : α} {after : List α} (h : item ∉ after)
    (before : List α) : (before ++ item :: after).reverse.idxOf? item = some after.length := by
  have hafter : after.reverse.findIdx? (· == item) = none :=
    List.idxOf?_eq_none_iff.mpr (by simpa using h)
  rw [List.reverse_append, List.reverse_cons, List.append_assoc, List.idxOf?,
    List.findIdx?_append, hafter]
  simp [List.findIdx?_cons]

/-- One element replaced: the others stay, whatever stands in its place. -/
theorem exists_set_perm {items : List α} {i : Nat} {old : α} (h : items[i]? = some old) (new : α) :
    ∃ others, items.Perm (old :: others) ∧ (items.set i new).Perm (new :: others) := by
  obtain ⟨hlength, rfl⟩ := List.getElem?_eq_some_iff.mp h
  exact ⟨items.eraseIdx i, (List.getElem_cons_eraseIdx_perm hlength).symm,
    List.set_perm_cons_eraseIdx hlength new⟩

/-- A function given by a table of distinct values, and elsewhere by an injective function that has
none of them, is injective. -/
theorem lookup_getD_injective [BEq α] [LawfulBEq α] {table : List (α × β)} {base : α → β}
    (hbase : Function.Injective base) (hvalues : (table.map Prod.snd).Nodup)
    (hapart : ∀ entry ∈ table, ∀ key, base key ≠ entry.2) :
    Function.Injective fun key => (table.lookup key).getD (base key) := by
  have hmem {key : α} {value : β} (h : table.lookup key = some value) : (key, value) ∈ table := by
    obtain ⟨before, after, rfl, -⟩ := List.lookup_eq_some_iff.mp h
    exact List.mem_append_right before List.mem_cons_self
  intro key key' h
  dsimp only at h
  cases hkey : table.lookup key <;> cases hkey' : table.lookup key' <;> rw [hkey, hkey'] at h
  case none.none => exact hbase h
  case none.some value' => exact absurd h (hapart _ (hmem hkey') key)
  case some.none value => exact absurd h.symm (hapart _ (hmem hkey) key')
  case some.some value value' =>
    exact congrArg Prod.fst (List.inj_on_of_nodup_map hvalues (hmem hkey) (hmem hkey') h)

end Agentless.Sequence
