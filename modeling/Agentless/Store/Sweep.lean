import Mathlib

/-!
# The eviction plan of the cache

The plan walks the databases from the most recently used one and plans the first one that does not
fit, and with it every colder one that is not protected.
-/

namespace Agentless.Store

/-- One cached database, as the sweep weighs it. -/
structure CacheEntry (ρ τ : Type) where
  database : ρ
  size : Nat
  usedAt : τ
  deriving DecidableEq, Repr

def maxU64 : Nat := 2 ^ 64 - 1

def saturatingAdd (x y : Nat) : Nat := min (x + y) maxU64

/-- The planned entries so far, and the bytes of the entries that are kept. -/
structure SweepWalk (ρ τ : Type) where
  evict : List (CacheEntry ρ τ)
  total : Nat

section Plan

variable {ρ τ : Type}

def sizes (entries : List (CacheEntry ρ τ)) : Nat := (entries.map CacheEntry.size).sum

theorem sizes_concat (entries : List (CacheEntry ρ τ)) (entry : CacheEntry ρ τ) :
    sizes (entries ++ [entry]) = sizes entries + entry.size := by
  simp [sizes]

variable [LinearOrder τ]

/-- The most recent first. Entries of one time keep their order. -/
def byRecency (entries : List (CacheEntry ρ τ)) : List (CacheEntry ρ τ) :=
  entries.insertionSort fun a b => b.usedAt ≤ a.usedAt

variable (limit : Nat) (keep : ρ) (protectedAfter : τ)

/-- The entry at its position is never planned. -/
def Protected (entry : CacheEntry ρ τ × Nat) : Prop :=
  entry.1.database = keep ∨ entry.2 = 0 ∨ protectedAfter ≤ entry.1.usedAt

variable [DecidableEq ρ]

instance : DecidablePred (Protected keep protectedAfter) := fun entry =>
  inferInstanceAs (Decidable
    (entry.1.database = keep ∨ entry.2 = 0 ∨ protectedAfter ≤ entry.1.usedAt))

def weigh (walk : SweepWalk ρ τ) (entry : CacheEntry ρ τ × Nat) : SweepWalk ρ τ :=
  let total := saturatingAdd walk.total entry.1.size
  if ¬ Protected keep protectedAfter entry ∧ (walk.evict ≠ [] ∨ limit < total) then
    { walk with evict := walk.evict ++ [entry.1] }
  else { walk with total }

/-- The databases to delete, coldest first. -/
def evictPlan (entries : List (CacheEntry ρ τ)) : List (CacheEntry ρ τ) :=
  ((byRecency entries).zipIdx.foldl (weigh limit keep protectedAfter)
    { evict := [], total := 0 }).evict.reverse

/-! ## What is planned -/

/-- The entries that no protection holds, for a list that starts at the position. -/
def unprotected (position : Nat) (entries : List (CacheEntry ρ τ)) : List (CacheEntry ρ τ) :=
  ((entries.zipIdx position).filter (¬ Protected keep protectedAfter ·)).map Prod.fst

/-- Each entry without protection fits, with all before it. -/
def Fits (kept : List (CacheEntry ρ τ)) : Prop :=
  ∀ before entry, before ++ [entry] <+: kept →
    ¬ Protected keep protectedAfter (entry, before.length) → sizes (before ++ [entry]) ≤ limit

/-- The entry at the position has no protection and does not fit. -/
def Overflows (kept : List (CacheEntry ρ τ)) (entry : CacheEntry ρ τ) : Prop :=
  ¬ Protected keep protectedAfter (entry, kept.length) ∧ limit < sizes (kept ++ [entry])

/-- The walk has kept the first entries and planned the others that no protection holds. -/
structure Planned (kept rest : List (CacheEntry ρ τ)) (walk : SweepWalk ρ τ) : Prop where
  evict : walk.evict = unprotected keep protectedAfter kept.length rest
  fits : Fits limit keep protectedAfter kept
  overflows : ∀ first ∈ rest.head?, Overflows limit keep protectedAfter kept first
  total : rest = [] → walk.total = min (sizes kept) maxU64

variable {limit keep protectedAfter}

theorem unprotected_concat (position : Nat) (entries : List (CacheEntry ρ τ))
    (entry : CacheEntry ρ τ) :
    unprotected keep protectedAfter position (entries ++ [entry]) =
      unprotected keep protectedAfter position entries ++
        if Protected keep protectedAfter (entry, position + entries.length) then [] else [entry] := by
  unfold unprotected
  rw [List.zipIdx_append, List.filter_append, List.map_append]
  congr 1
  split_ifs with h <;> simp [h]

omit [DecidableEq ρ] in
theorem Fits.concat {kept : List (CacheEntry ρ τ)} {entry : CacheEntry ρ τ}
    (h : Fits limit keep protectedAfter kept)
    (hentry : ¬ Protected keep protectedAfter (entry, kept.length) →
      sizes (kept ++ [entry]) ≤ limit) :
    Fits limit keep protectedAfter (kept ++ [entry]) := by
  intro before last hprefix hlast
  rcases List.prefix_concat_iff.mp hprefix with heq | hbefore
  · obtain ⟨rfl, hsame⟩ := List.append_inj' heq rfl
    obtain rfl : last = entry := by simpa using hsame
    exact hentry hlast
  · exact h before last hbefore hlast

theorem Planned.first {kept : List (CacheEntry ρ τ)} {walk : SweepWalk ρ τ}
    (h : Planned limit keep protectedAfter kept [] walk) (hlimit : limit < maxU64)
    (entry : CacheEntry ρ τ) :
    let next := weigh limit keep protectedAfter walk (entry, kept.length)
    Planned limit keep protectedAfter (kept ++ [entry]) [] next ∨
      Planned limit keep protectedAfter kept [entry] next := by
  have hevict : walk.evict = [] := h.evict
  have htotal := h.total rfl
  have hsizes := sizes_concat kept entry
  unfold weigh saturatingAdd
  dsimp only
  split_ifs with hplanned
  · right
    obtain ⟨hfree, hover⟩ := hplanned
    have hover : limit < min (walk.total + entry.size) maxU64 := hover.resolve_left (by simp [hevict])
    refine ⟨?_, h.fits, ?_, by simp⟩
    · simp [hevict, unprotected, hfree]
    · intro first hfirst
      obtain rfl : entry = first := by simpa using hfirst
      exact ⟨hfree, by omega⟩
  · left
    refine ⟨hevict, h.fits.concat fun hfree => ?_, by simp, fun _ => ?_⟩
    · have hfit : ¬ limit < min (walk.total + entry.size) maxU64 := fun hover =>
        hplanned ⟨hfree, .inr hover⟩
      omega
    · change min (walk.total + entry.size) maxU64 = _
      omega

theorem Planned.colder {kept rest : List (CacheEntry ρ τ)} {first : CacheEntry ρ τ}
    {walk : SweepWalk ρ τ} (h : Planned limit keep protectedAfter kept (first :: rest) walk)
    (entry : CacheEntry ρ τ) :
    Planned limit keep protectedAfter kept (first :: rest ++ [entry])
      (weigh limit keep protectedAfter walk (entry, (kept ++ first :: rest).length)) := by
  have hfirst := (h.overflows first rfl).1
  have hevict : walk.evict ≠ [] := by
    rw [h.evict]
    simp [unprotected, hfirst]
  refine ⟨?_, h.fits, h.overflows, by simp⟩
  rw [unprotected_concat, ← List.length_append, ← h.evict]
  unfold weigh
  dsimp only
  by_cases hheld : Protected keep protectedAfter (entry, (kept ++ first :: rest).length)
  · rw [if_neg fun hplan => hplan.1 hheld, if_pos hheld, List.append_nil]
  · rw [if_pos ⟨hheld, .inl hevict⟩, if_neg hheld]

theorem planned_foldl (keep : ρ) (protectedAfter : τ) (hlimit : limit < maxU64)
    (ordered : List (CacheEntry ρ τ)) :
    ∃ kept rest, ordered = kept ++ rest ∧ Planned limit keep protectedAfter kept rest
      (ordered.zipIdx.foldl (weigh limit keep protectedAfter) { evict := [], total := 0 }) := by
  induction ordered using List.reverseRecOn with
  | nil =>
    refine ⟨[], [], rfl, rfl, ?_, by simp, fun _ => rfl⟩
    intro before entry hprefix
    simp at hprefix
  | append_singleton ordered entry ih =>
    obtain ⟨kept, rest, rfl, hplanned⟩ := ih
    rw [List.zipIdx_append, List.foldl_append, List.zipIdx_singleton, List.foldl_cons,
      List.foldl_nil, Nat.zero_add]
    cases rest with
    | nil =>
      rw [List.append_nil] at hplanned ⊢
      rcases hplanned.first hlimit entry with hkept | hfirst
      · exact ⟨kept ++ [entry], [], by simp, hkept⟩
      · exact ⟨kept, [entry], rfl, hfirst⟩
    | cons first rest =>
      exact ⟨kept, first :: rest ++ [entry], by simp, hplanned.colder entry⟩

/-- The entry at position 0 is protected. -/
theorem unprotected_sublist_tail (kept rest : List (CacheEntry ρ τ)) :
    (unprotected keep protectedAfter kept.length rest).Sublist (kept ++ rest).tail := by
  have hsublist (position : Nat) (entries : List (CacheEntry ρ τ)) :
      (unprotected keep protectedAfter position entries).Sublist entries := by
    have hfilter := (List.filter_sublist (p := fun entry => ¬ Protected keep protectedAfter entry)
      (l := entries.zipIdx position)).map Prod.fst
    rwa [List.zipIdx_map_fst] at hfilter
  cases kept with
  | cons first kept => exact (hsublist _ rest).trans (List.sublist_append_right _ _)
  | nil =>
    cases rest with
    | nil => exact List.nil_sublist _
    | cons first rest =>
      have hfirst : Protected keep protectedAfter (first, 0) := .inr (.inl rfl)
      have hdrop : unprotected keep protectedAfter 0 (first :: rest) =
          unprotected keep protectedAfter 1 rest := by
        simp [unprotected, hfirst]
      rw [List.length_nil, hdrop]
      exact hsublist 1 rest

/-- The plan keeps the entries in order of recency up to the first that has no protection and does
not fit. The others are planned, coldest first, unless they are protected. -/
theorem evictPlan_splits (limit : Nat) (keep : ρ) (protectedAfter : τ)
    (entries : List (CacheEntry ρ τ)) (hlimit : limit < maxU64) :
    (byRecency entries).Perm entries ∧
      (byRecency entries).Pairwise (fun x y => y.usedAt ≤ x.usedAt) ∧
      ∃ kept rest, byRecency entries = kept ++ rest ∧
        evictPlan limit keep protectedAfter entries =
          (unprotected keep protectedAfter kept.length rest).reverse ∧
        Fits limit keep protectedAfter kept ∧
        (∀ first ∈ rest.head?, Overflows limit keep protectedAfter kept first) ∧
        (evictPlan limit keep protectedAfter entries).reverse.Sublist (byRecency entries).tail ∧
        ∀ entry ∈ evictPlan limit keep protectedAfter entries,
          entry.database ≠ keep ∧ entry.usedAt < protectedAfter := by
  refine ⟨List.perm_insertionSort _ _, ?_, ?_⟩
  · exact List.pairwise_insertionSort (fun a b : CacheEntry ρ τ => b.usedAt ≤ a.usedAt) entries
  obtain ⟨kept, rest, hordered, hplanned⟩ := planned_foldl keep protectedAfter hlimit
    (byRecency entries)
  have hplan : evictPlan limit keep protectedAfter entries =
      (unprotected keep protectedAfter kept.length rest).reverse := by
    rw [evictPlan, hplanned.evict]
  refine ⟨kept, rest, hordered, hplan, hplanned.fits, hplanned.overflows, ?_, ?_⟩
  · rw [hplan, List.reverse_reverse, hordered]
    exact unprotected_sublist_tail kept rest
  · intro entry hentry
    rw [hplan, List.mem_reverse] at hentry
    obtain ⟨item, hitem, rfl⟩ := List.mem_map.mp hentry
    have hfree : ¬ Protected keep protectedAfter item := by simpa using (List.mem_filter.mp hitem).2
    unfold Protected at hfree
    grind

end Plan

/-! ## Entries of one time -/

namespace SameTime

def entry (database size usedAt : Nat) : CacheEntry Nat Nat := { database, size, usedAt }

theorem evictPlan_splits_two :
    evictPlan 10 7 8 [entry 1 9 2, entry 2 9 5] = [entry 1 9 2] ∧
      ∃ kept rest, byRecency [entry 1 9 2, entry 2 9 5] = kept ++ rest ∧
        evictPlan 10 7 8 [entry 1 9 2, entry 2 9 5] = (unprotected 7 8 kept.length rest).reverse ∧
        Fits 10 7 8 kept ∧
        (∀ first ∈ rest.head?, Overflows 10 7 8 kept first) ∧
        (evictPlan 10 7 8 [entry 1 9 2, entry 2 9 5]).reverse.Sublist
          (byRecency [entry 1 9 2, entry 2 9 5]).tail ∧
        ∀ planned ∈ evictPlan 10 7 8 [entry 1 9 2, entry 2 9 5],
          planned.database ≠ 7 ∧ planned.usedAt < 8 :=
  ⟨by decide, (evictPlan_splits 10 7 8 [entry 1 9 2, entry 2 9 5] (by decide)).2.2⟩

/-- Of two entries that are the most recent together the second can be planned, and the kept entry
at `keep` can have the time of the last one that fits. -/
theorem evictPlan_ties :
    (evictPlan 10 7 8 [entry 1 9 5, entry 2 9 5] = [entry 2 9 5]) ∧
      evictPlan 10 7 8 [entry 1 1 6, entry 2 1 5, entry 7 100 5] = [] ∧
      10 < sizes [entry 1 1 6, entry 2 1 5, entry 7 100 5] := by
  decide

end SameTime

end Agentless.Store
