import Mathlib.Algebra.BigOperators.Group.List.Basic
import Agentless.Library.Assoc
import Agentless.Library.Text

/-!
# Maps that are filled item by item

Items pushed under their keys, keys counted, and amounts added under keys. What such a map holds
at a key is what a filter of the items by that key gives.
-/

namespace Agentless.Collect

open Std

variable {α β γ : Type} [Ord α] [TransOrd α] [LawfulEqOrd α] [DecidableEq α]

/-! ## Items under their keys -/

def push (held : TreeMap α (List γ) compare) (key : α) (item : γ) : TreeMap α (List γ) compare :=
  held.alter key fun found => some (found.getD [] ++ [item])

def pushAll (key : β → α) (value : β → γ) (items : List β) : TreeMap α (List γ) compare :=
  items.foldl (fun held item => push held (key item) (value item)) {}

theorem getD_push (held : TreeMap α (List γ) compare) (key k : α) (item : γ) :
    (push held key item)[k]?.getD [] = held[k]?.getD [] ++ if key = k then [item] else [] := by
  rw [push, TreeMap.getElem?_alter]
  by_cases h : key = k
  · subst h
    simp
  · simp [h]

theorem getD_pushAll (key : β → α) (value : β → γ) (items : List β) (k : α) :
    (pushAll key value items)[k]?.getD [] = (items.filter (key · = k)).map value := by
  unfold pushAll
  induction items using List.reverseRecOn with
  | nil => simp
  | append_singleton items item ih =>
    rw [List.foldl_append, List.foldl_cons, List.foldl_nil, getD_push, ih, List.filter_append,
      List.map_append]
    by_cases h : key item = k <;> simp [h]

theorem mem_pushAll {key : β → α} {value : β → γ} {items : List β} {k : α} :
    k ∈ pushAll key value items ↔ ∃ item ∈ items, key item = k := by
  unfold pushAll
  induction items using List.reverseRecOn with
  | nil => simp
  | append_singleton items item ih =>
    rw [List.foldl_append, List.foldl_cons, List.foldl_nil, push, TreeMap.mem_alter]
    by_cases h : key item = k
    · simp [h]
    · simp [h, ih]

/-! ## Counts -/

def tally (keys : List α) : TreeMap α Nat compare :=
  keys.foldl (fun counts key => counts.alter key fun found => some (found.getD 0 + 1)) {}

theorem getD_tally (keys : List α) (k : α) : (tally keys)[k]?.getD 0 = keys.countP (· = k) := by
  unfold tally
  induction keys using List.reverseRecOn with
  | nil => simp
  | append_singleton keys key ih =>
    rw [List.foldl_append, List.foldl_cons, List.foldl_nil, TreeMap.getElem?_alter,
      List.countP_append, ← ih]
    by_cases h : key = k
    · subst h
      simp
    · simp [h]

/-- A zero amount adds no entry. -/
def add (counts : TreeMap α Nat compare) (key : α) (count : Nat) : TreeMap α Nat compare :=
  if 0 < count then counts.alter key fun found => some (found.getD 0 + count) else counts

theorem getD_add (counts : TreeMap α Nat compare) (key k : α) (count : Nat) :
    (add counts key count)[k]?.getD 0 = counts[k]?.getD 0 + if key = k then count else 0 := by
  unfold add
  split_ifs with hcount hkey hkey
  · subst hkey
    rw [TreeMap.getElem?_alter]
    simp
  · rw [TreeMap.getElem?_alter]
    simp [hkey]
  · omega
  · rfl

theorem getD_foldl_add (key : β → α) (count : β → Nat) (items : List β)
    (counts : TreeMap α Nat compare) (k : α) :
    (items.foldl (fun counts item => add counts (key item) (count item)) counts)[k]?.getD 0 =
      counts[k]?.getD 0 + (items.map fun item => if key item = k then count item else 0).sum := by
  induction items generalizing counts with
  | nil => simp
  | cons item items ih =>
    rw [List.foldl_cons, ih, getD_add, List.map_cons, List.sum_cons, Nat.add_assoc]

/-! ## Amounts -/

/-- An amount added under a key, which starts from zero. -/
def accumulate [Zero γ] [Add γ] (held : TreeMap α γ compare) (key : α) (amount : γ) :
    TreeMap α γ compare :=
  held.insert key (held[key]?.getD 0 + amount)

theorem getD_foldl_accumulate [AddMonoid γ] (key : β → α) (amount : β → γ) (items : List β)
    (held : TreeMap α γ compare) (k : α) :
    (items.foldl (fun held item => accumulate held (key item) (amount item)) held)[k]?.getD 0 =
      held[k]?.getD 0 + ((items.filter (key · = k)).map amount).sum := by
  induction items generalizing held with
  | nil => simp
  | cons item items ih =>
    rw [List.foldl_cons, ih, accumulate, TreeMap.getElem?_insert]
    by_cases h : key item = k
    · simp [h, add_assoc]
    · simp [h]

omit [DecidableEq α] in
theorem mem_foldl_accumulate [AddMonoid γ] {key : β → α} {amount : β → γ} {items : List β}
    {held : TreeMap α γ compare} {k : α} :
    k ∈ items.foldl (fun held item => accumulate held (key item) (amount item)) held ↔
      k ∈ held ∨ ∃ item ∈ items, key item = k := by
  induction items generalizing held with
  | nil => simp
  | cons item items ih =>
    rw [List.foldl_cons, ih, accumulate, TreeMap.mem_insert]
    simp only [Std.compare_eq_iff_eq, List.mem_cons, exists_eq_or_imp]
    grind

/-! ## Sums by key -/

omit [Ord α] [TransOrd α] [LawfulEqOrd α] in
theorem sum_eq_zero_of_ne {key : β → α} {f : β → Nat} {items : List β} {k : α}
    (h : ∀ item ∈ items, key item ≠ k) :
    (items.map fun item => if key item = k then f item else 0).sum = 0 := by
  induction items with
  | nil => rfl
  | cons item items ih =>
    rw [List.map_cons, List.sum_cons, if_neg (h item List.mem_cons_self),
      ih fun other hother => h other (List.mem_cons_of_mem _ hother)]

omit [Ord α] [TransOrd α] [LawfulEqOrd α] in
/-- A sum over items with one key is that item's amount when the keys differ. -/
theorem sum_eq_of_mem {key : β → α} {f : β → Nat} {items : List β} {item : β}
    (hdistinct : (items.map key).Nodup) (hitem : item ∈ items) :
    (items.map fun other => if key other = key item then f other else 0).sum = f item := by
  induction items with
  | nil => cases hitem
  | cons first items ih =>
    rw [List.map_cons, List.nodup_cons] at hdistinct
    rw [List.map_cons, List.sum_cons]
    rcases List.mem_cons.mp hitem with rfl | hitem
    · have hne : ∀ other ∈ items, key other ≠ key item := fun other hother hsame =>
        hdistinct.1 (hsame ▸ List.mem_map_of_mem hother)
      rw [if_pos rfl, sum_eq_zero_of_ne hne, Nat.add_zero]
    · have hne : key first ≠ key item := fun hsame =>
        hdistinct.1 (hsame ▸ List.mem_map_of_mem hitem)
      rw [if_neg hne, ih hdistinct.2 hitem, Nat.zero_add]

omit [LawfulEqOrd α] [DecidableEq α] in
theorem nodup_map_fst_toList (held : TreeMap α β compare) : (held.toList.map Prod.fst).Nodup := by
  rw [TreeMap.map_fst_toList_eq_keys]
  exact TreeMap.nodup_keys

/-- Looking a key up among the entries of a map, each changed. -/
theorem lookup_map_toList [BEq α] [LawfulBEq α] (held : TreeMap α β compare) (f : β → γ) (k : α) :
    (held.toList.map fun entry => (entry.1, f entry.2)).lookup k = held[k]?.map f := by
  have hnodup : ((held.toList.map fun entry => (entry.1, f entry.2)).map Prod.fst).Nodup := by
    rw [List.map_map]
    exact nodup_map_fst_toList held
  refine Option.ext fun value => ?_
  rw [← Assoc.mem_iff_lookup hnodup, Option.map_eq_some_iff, List.mem_map]
  constructor
  · rintro ⟨⟨key, found⟩, hmem, heq⟩
    obtain ⟨rfl, rfl⟩ := Prod.mk.inj heq
    exact ⟨found, TreeMap.mem_toList_iff_getElem?_eq_some.mp hmem, rfl⟩
  · rintro ⟨found, hfound, rfl⟩
    exact ⟨(k, found), TreeMap.mem_toList_iff_getElem?_eq_some.mpr hfound, rfl⟩

/-- The entry of a map at one key, as a sum over its entries. -/
theorem sum_toList (held : TreeMap α Nat compare) (f : α × Nat → Nat) (k : α) :
    (held.toList.map fun entry => if entry.1 = k then f entry else 0).sum =
      held[k]?.elim 0 fun count => f (k, count) := by
  cases hk : held[k]? with
  | none =>
    refine sum_eq_zero_of_ne fun entry hentry hsame => ?_
    subst hsame
    cases hk.symm.trans (TreeMap.mem_toList_iff_getElem?_eq_some.mp hentry)
  | some count =>
    exact sum_eq_of_mem (nodup_map_fst_toList held) (TreeMap.mem_toList_iff_getElem?_eq_some.mpr hk)

omit [Ord α] [TransOrd α] [LawfulEqOrd α] in
/-- Items summed key by key, where each key comes once and every item that counts has one of them. -/
theorem sum_by_key (key : β → α) (f : β → Nat) {keys : List α} (hkeys : keys.Nodup) {items : List β}
    (hitems : ∀ item ∈ items, key item ∉ keys → f item = 0) :
    (keys.map fun k => ((items.filter (key · = k)).map f).sum).sum = (items.map f).sum := by
  induction items with
  | nil => simp
  | cons item items ih =>
    have hsplit k : (((item :: items).filter (key · = k)).map f).sum =
        (if k = key item then f item else 0) + ((items.filter (key · = k)).map f).sum := by
      by_cases h : key item = k
      · simp [h]
      · simp [h, Ne.symm h]
    have hone : (keys.map fun k => if k = key item then f item else 0).sum = f item := by
      by_cases hitem : key item ∈ keys
      · exact sum_eq_of_mem (by simpa using hkeys) hitem
      · rw [hitems item List.mem_cons_self hitem]
        simp
    simp only [hsplit, List.sum_map_add]
    rw [hone, ih fun other hother => hitems other (List.mem_cons_of_mem _ hother), List.map_cons,
      List.sum_cons]

end Agentless.Collect
