import Agentless.Library.Groups

/-!
# Queues that wait under keys

Old items wait in a queue for each key, and each new item takes the first one that waits under its
key. The items that meet are pairs of one key, and no old and new item that are left have one key.
-/

namespace Agentless.Queues

variable {α β κ : Type} [DecidableEq κ]

/-- The queues after the first item under the key is taken, when one waits there. -/
def takeWaiting (key : κ) : List (κ × List α) → Option (List (κ × List α))
  | [] => none
  | (k, queue) :: waiting =>
    if k = key then
      match queue with
      | [] => none
      | _ :: queue => some ((k, queue) :: waiting)
    else (takeWaiting key waiting).map ((k, queue) :: ·)

/-- The queues that are left, and the new items that take nothing. -/
def takeAll (newKey : β → κ) : List (κ × List α) → List β → List (κ × List α) × List β
  | waiting, [] => (waiting, [])
  | waiting, item :: items =>
    match takeWaiting (newKey item) waiting with
    | some rest => takeAll newKey rest items
    | none =>
      let left := takeAll newKey waiting items
      (left.1, item :: left.2)

def flat (waiting : List (κ × List α)) : List α := waiting.flatMap Prod.snd

/-- Each item waits under its own key, and each key has one queue. -/
structure Keyed (oldKey : α → κ) (waiting : List (κ × List α)) : Prop where
  nodup : (waiting.map Prod.fst).Nodup
  key : ∀ entry ∈ waiting, ∀ item ∈ entry.2, oldKey item = entry.1

/-- Some old and new items met under their keys, and the others are left. -/
structure Met (oldKey : α → κ) (newKey : β → κ) (old : List α) (new : List β) (olds : List α)
    (news : List β) (pairs : List (α × β)) : Prop where
  old_perm : old.Perm (pairs.map Prod.fst ++ olds)
  new_perm : new.Perm (pairs.map Prod.snd ++ news)
  same : ∀ pair ∈ pairs, oldKey pair.1 = newKey pair.2
  apart : ∀ left ∈ olds, ∀ right ∈ news, oldKey left ≠ newKey right
  sublist : news.Sublist new

variable {oldKey : α → κ} {newKey : β → κ} {waiting rest : List (κ × List α)} {key : κ}

omit [DecidableEq κ] in
theorem Keyed.tail {entry : κ × List α} (h : Keyed oldKey (entry :: waiting)) :
    Keyed oldKey waiting :=
  ⟨(List.nodup_cons.mp h.nodup).2, fun other hother => h.key other (List.mem_cons_of_mem _ hother)⟩

theorem keyed_grouped (items : List α) : Keyed oldKey (Groups.grouped oldKey items) := by
  rw [Groups.grouped_eq]
  constructor
  · have hkeys := Groups.nodup_keysOf oldKey items
    simpa [Function.comp_def] using hkeys
  · intro entry hentry item hitem
    obtain ⟨k, -, rfl⟩ := List.mem_map.mp hentry
    exact of_decide_eq_true (List.mem_filter.mp hitem).2

theorem flat_grouped (items : List α) : (flat (Groups.grouped oldKey items)).Perm items := by
  rw [flat, Groups.grouped_eq, List.flatMap_map]
  exact Groups.flatMap_filter_perm oldKey (Groups.nodup_keysOf oldKey items)
    fun item hitem => Groups.mem_keysOf.mpr ⟨item, hitem, rfl⟩

theorem map_fst_takeWaiting (h : takeWaiting key waiting = some rest) :
    rest.map Prod.fst = waiting.map Prod.fst := by
  induction waiting generalizing rest with
  | nil => cases h
  | cons entry waiting ih =>
    obtain ⟨k, queue⟩ := entry
    unfold takeWaiting at h
    split_ifs at h with hk
    · cases queue with
      | nil => cases h
      | cons first queue =>
        cases h
        rfl
    · obtain ⟨more, hmore, rfl⟩ := Option.map_eq_some_iff.mp h
      simp [ih hmore]

/-- What is taken waited under the key. -/
theorem takeWaiting_eq_some (hkeyed : Keyed oldKey waiting)
    (h : takeWaiting key waiting = some rest) :
    Keyed oldKey rest ∧ ∃ item, oldKey item = key ∧ (flat waiting).Perm (item :: flat rest) := by
  induction waiting generalizing rest with
  | nil => cases h
  | cons entry waiting ih =>
    have hfst := map_fst_takeWaiting h
    obtain ⟨k, queue⟩ := entry
    unfold takeWaiting at h
    split_ifs at h with hk
    · cases queue with
      | nil => cases h
      | cons first queue =>
        cases h
        have hfirst := hkeyed.key _ List.mem_cons_self
        refine ⟨⟨hkeyed.nodup, ?_⟩, first, (hfirst first List.mem_cons_self).trans hk, ?_⟩
        · refine List.forall_mem_cons.mpr ⟨fun item hitem => ?_, hkeyed.tail.key⟩
          exact hfirst item (List.mem_cons_of_mem _ hitem)
        · rfl
    · obtain ⟨more, hmore, rfl⟩ := Option.map_eq_some_iff.mp h
      obtain ⟨hrest, item, hitem, hperm⟩ := ih hkeyed.tail hmore
      refine ⟨⟨hfst ▸ hkeyed.nodup, ?_⟩, item, hitem, ?_⟩
      · exact List.forall_mem_cons.mpr ⟨hkeyed.key _ List.mem_cons_self, hrest.key⟩
      · have hstep := hperm.append_left queue
        exact hstep.trans List.perm_middle

/-- Nothing waits under a key that gives nothing. -/
theorem takeWaiting_eq_none (hkeyed : Keyed oldKey waiting) (h : takeWaiting key waiting = none) :
    ∀ item ∈ flat waiting, oldKey item ≠ key := by
  induction waiting with
  | nil => simp [flat]
  | cons entry waiting ih =>
    obtain ⟨k, queue⟩ := entry
    unfold takeWaiting at h
    intro item hitem heq
    rcases List.mem_append.mp (show item ∈ queue ++ flat waiting from hitem) with hqueue | hmore
    · have hk := hkeyed.key _ List.mem_cons_self item hqueue
      rw [if_pos (hk.symm.trans heq)] at h
      cases queue with
      | nil => cases hqueue
      | cons first queue => cases h
    · split_ifs at h with hk
      · obtain ⟨other, hother, hinside⟩ := List.mem_flatMap.mp hmore
        have hsame := (hkeyed.tail.key other hother item hinside).symm.trans (heq.trans hk.symm)
        exact (List.nodup_cons.mp hkeyed.nodup).1 (List.mem_map.mpr ⟨other, hother, hsame⟩)
      · exact ih hkeyed.tail (Option.map_eq_none_iff.mp h) item hmore heq

theorem met_takeAll (hkeyed : Keyed oldKey waiting) (new : List β) :
    ∃ pairs, Met oldKey newKey (flat waiting) new (flat (takeAll newKey waiting new).1)
      (takeAll newKey waiting new).2 pairs := by
  induction new generalizing waiting with
  | nil => exact ⟨[], .refl _, .refl _, by simp, by simp [takeAll], List.Sublist.refl _⟩
  | cons item items ih =>
    unfold takeAll
    cases htaken : takeWaiting (newKey item) waiting with
    | some rest =>
      obtain ⟨hrest, first, hfirst, hperm⟩ := takeWaiting_eq_some hkeyed htaken
      obtain ⟨pairs, hmet⟩ := ih hrest
      refine ⟨(first, item) :: pairs, hperm.trans (hmet.old_perm.cons first),
        hmet.new_perm.cons item, List.forall_mem_cons.mpr ⟨hfirst, hmet.same⟩, hmet.apart,
        hmet.sublist.cons item⟩
    | none =>
      obtain ⟨pairs, hmet⟩ := ih hkeyed
      refine ⟨pairs, hmet.old_perm, (hmet.new_perm.cons item).trans List.perm_middle.symm,
        hmet.same, fun left hleft => ?_, hmet.sublist.cons_cons item⟩
      refine List.forall_mem_cons.mpr ⟨?_, hmet.apart left hleft⟩
      have hmem : left ∈ flat waiting := hmet.old_perm.mem_iff.mpr (List.mem_append_right _ hleft)
      exact takeWaiting_eq_none hkeyed htaken left hmem

/-! ## Counts -/

namespace Met

variable {old olds : List α} {new news : List β} {pairs : List (α × β)}

omit [DecidableEq κ] in
/-- A property that two items of one key share holds of as many old as new items that met. -/
theorem countP_eq (h : Met oldKey newKey old new olds news pairs) {p : α → Bool} {q : β → Bool}
    (hsame : ∀ left ∈ old, ∀ right ∈ new, oldKey left = newKey right → p left = q right) :
    ∃ met, old.countP p = met + olds.countP p ∧ new.countP q = met + news.countP q := by
  refine ⟨(pairs.map Prod.fst).countP p, ?_, ?_⟩
  · rw [h.old_perm.countP_eq, List.countP_append]
  · have hpairs : (pairs.map Prod.fst).countP p = (pairs.map Prod.snd).countP q := by
      rw [List.countP_map, List.countP_map]
      refine List.countP_congr fun pair hpair => ?_
      have hleft : pair.1 ∈ old :=
        h.old_perm.mem_iff.mpr (List.mem_append_left _ (List.mem_map_of_mem hpair))
      have hright : pair.2 ∈ new :=
        h.new_perm.mem_iff.mpr (List.mem_append_left _ (List.mem_map_of_mem hpair))
      simp [hsame pair.1 hleft pair.2 hright (h.same pair hpair)]
    rw [h.new_perm.countP_eq, List.countP_append, hpairs]

/-- The new items of a key that are left are those beyond the old ones of it. -/
theorem countP_key (h : Met oldKey newKey old new olds news pairs) (key : κ) :
    news.countP (fun right => newKey right = key) =
      new.countP (fun right => newKey right = key) -
        old.countP (fun left => oldKey left = key) := by
  obtain ⟨met, hold, hnew⟩ := h.countP_eq (p := fun left => oldKey left = key)
    (q := fun right => newKey right = key) fun left _ right _ heq => by rw [heq]
  have hapart : olds.countP (fun left => oldKey left = key) = 0 ∨
      news.countP (fun right => newKey right = key) = 0 := by
    by_contra hboth
    obtain ⟨holds, hnews⟩ := not_or.mp hboth
    obtain ⟨left, hleft, hkey⟩ := List.countP_pos_iff.mp (Nat.pos_of_ne_zero holds)
    obtain ⟨right, hright, hkey'⟩ := List.countP_pos_iff.mp (Nat.pos_of_ne_zero hnews)
    exact h.apart left hleft right hright
      ((of_decide_eq_true hkey).trans (of_decide_eq_true hkey').symm)
  omega

end Met

end Agentless.Queues
