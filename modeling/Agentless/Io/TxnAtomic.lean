import Agentless.Io.Txn

/-!
# Atomicity of the repository write

For steps that are atomic and name fresh siblings, the outcome of a write says what the store
holds after it, whichever of its calls failed. The argument follows the phases. Staging and
reserving only add siblings. While the moves run, the original content of every file has a
`home`: its own path until the first move away from it, and from then on that move's backup. The
restore brings each content home, or names the backup that still holds it.
-/

namespace Agentless.Io.Txn

open Std

variable {W Path Refusal : Type} [DecidableEq Path]

/-- A failed call changes no file, and a successful one does what its name says. A sibling is
created at a path that held nothing, and only beside an existing target. -/
structure Atomic (steps : Steps W Path) (store : W → Path → Option Bytes) : Prop where
  stage_ok : ∀ {target bytes w staging w'}, steps.stage target bytes w = (.ok staging, w') →
    (store w target).isSome ∧ store w staging = none ∧
      store w' = Function.update (store w) staging (some bytes)
  stage_error : ∀ {target bytes w reason w'},
    steps.stage target bytes w = (.error reason, w') → store w' = store w
  reserve_ok : ∀ {target w backup w'}, steps.reserve target w = (.ok backup, w') →
    store w backup = none ∧ store w' = Function.update (store w) backup (some [])
  reserve_error : ∀ {target w reason w'},
    steps.reserve target w = (.error reason, w') → store w' = store w
  rename_ok : ∀ {source target w w'}, steps.rename source target w = (.ok (), w') →
    ∃ bytes, store w source = some bytes ∧
      store w' = Function.update (Function.update (store w) source none) target (some bytes)
  rename_error : ∀ {source target w reason w'},
    steps.rename source target w = (.error reason, w') → store w' = store w
  remove_ok : ∀ {path w w'}, steps.remove path w = (.ok (), w') →
    store w' = Function.update (store w) path none
  remove_error : ∀ {path w reason w'},
    steps.remove path w = (.error reason, w') → store w' = store w

omit [DecidableEq Path] in
theorem call_ok {α : Type} {w w' : World Path} {a : α}
    {effect : (Path → Option Bytes) → Except Text (α × (Path → Option Bytes))}
    (h : w.call effect = (.ok a, w')) : effect w.store = .ok (a, w'.store) := by
  unfold World.call at h
  cases hr : w.refuses w.calls with
  | some reason => simp [hr] at h
  | none =>
    cases he : effect w.store with
    | error reason => simp [hr, he] at h
    | ok r =>
      simp only [hr, he, Prod.mk.injEq, Except.ok.injEq] at h
      obtain ⟨rfl, rfl⟩ := h
      rfl

omit [DecidableEq Path] in
theorem call_error {α : Type} {w w' : World Path} {reason : Text}
    {effect : (Path → Option Bytes) → Except Text (α × (Path → Option Bytes))}
    (h : w.call effect = (.error reason, w')) : w'.store = w.store := by
  unfold World.call at h
  cases hr : w.refuses w.calls with
  | some reason => simp only [hr, Prod.mk.injEq] at h; rw [← h.2]
  | none =>
    cases he : effect w.store with
    | error reason => simp only [hr, he, Prod.mk.injEq] at h; rw [← h.2]
    | ok r => simp [hr, he] at h

theorem createNamed_ok {path created : Path} {bytes : Bytes} {store store' : Path → Option Bytes}
    (h : createNamed path bytes store = .ok (created, store')) :
    store created = none ∧ store' = Function.update store created (some bytes) := by
  unfold createNamed at h
  split at h
  · cases h
  · next hfree =>
    obtain ⟨rfl, rfl⟩ := Prod.mk.injEq .. ▸ Except.ok.injEq .. ▸ h
    exact ⟨by simpa using hfree, rfl⟩

/-- The disk is atomic, whichever calls the operating system refuses and whichever names it
draws. -/
theorem disk_atomic : Atomic (disk : Steps (World Path) Path) World.store where
  stage_ok h := by
    simp only [disk] at h
    have he := call_ok h
    split at he
    · cases he
    · next htarget =>
      exact ⟨by simpa [Option.isSome_iff_ne_none] using htarget, createNamed_ok he⟩
  stage_error h := call_error (by simpa only [disk] using h)
  reserve_ok h := createNamed_ok (call_ok (by simpa only [disk] using h))
  reserve_error h := call_error (by simpa only [disk] using h)
  rename_ok {source target w w'} h := by
    simp only [disk] at h
    have he := call_ok h
    cases hs : w.store source with
    | none => simp [hs] at he
    | some bytes =>
      simp only [hs, Except.ok.injEq, Prod.mk.injEq, true_and] at he
      exact ⟨bytes, rfl, he.symm⟩
  rename_error h := call_error (by simpa only [disk] using h)
  remove_ok h := by
    simp only [disk] at h
    have he := call_ok h
    simp only [Except.ok.injEq, Prod.mk.injEq, true_and] at he
    exact he.symm
  remove_error h := call_error (by simpa only [disk] using h)

/-! ## What the write promises -/

/-- The bytes that `files` give to `target`: those of the last file, in path order, that
resolves to it. -/
def lastBytes (base : Base Path Refusal) [DecidableEq Refusal] (files : List (Text × Bytes))
    (target : Path) : Option Bytes :=
  (files.filter (fun file => base.containedPath file.1 = .ok target)).getLast?.map (·.2)

/-- Every file that was there still holds its content, and every new path is a leftover. -/
def Unchanged (s s' : Path → Option Bytes) (leftovers : List (Leftover Path)) : Prop :=
  (∀ p c, s p = some c → s' p = some c) ∧
    ∀ p, s p = none → s' p ≠ none → p ∈ leftovers.map (·.path)

/-- A failure that changed nothing. -/
def Kept (s s' : Path → Option Bytes) (failure : WriteFailure Path Refusal) : Prop :=
  Unchanged s s' failure.leftovers ∧
    ∀ name reason retained, failure.error ≠ .partlyApplied name reason retained

/-- One of the given paths, among those that count, resolves to `target`. -/
def Names (base : Base Path Refusal) (contents : List (Text × Bytes)) (among : Text → Prop)
    (target : Path) : Prop :=
  ∃ path ∈ contents.map (·.1), among path ∧ base.containedPath path = .ok target

/-- The bytes that `target` is given: those of the last pair for the last path, in path order and
among those that count, that resolves to it. -/
def Gives (base : Base Path Refusal) (contents : List (Text × Bytes)) (among : Text → Prop)
    (target : Path) (bytes : Bytes) : Prop :=
  ∃ path, among path ∧ base.containedPath path = .ok target ∧
    contents.reverse.lookup path = some bytes ∧
    ∀ other ∈ contents.map (·.1), among other → base.containedPath other = .ok target →
      compare other path ≠ .gt

/-- The backup of the target of a path: a new file with what the target held when the write came to
that path. -/
def BackupOf (base : Base Path Refusal) (contents : List (Text × Bytes)) (s s' : Path → Option Bytes)
    (path : Text) (backup : Path) : Prop :=
  ∃ target, base.containedPath path = .ok target ∧ s backup = none ∧ s' backup ≠ none ∧
    (∀ bytes, Gives base contents (compare · path = .lt) target bytes → s' backup = some bytes) ∧
    (¬Names base contents (compare · path = .lt) target → s' backup = s target)

/-- What an outcome says of the store `s` before the write and the store `s'` after it. -/
def Promise (base : Base Path Refusal) (contents : List (Text × Bytes))
    (s s' : Path → Option Bytes) : Except (WriteFailure Path Refusal) (List (Leftover Path)) → Prop
  | .ok leftovers =>
    (∀ target bytes, Gives base contents (fun _ => True) target bytes → s' target = some bytes) ∧
    (∀ p, ¬Names base contents (fun _ => True) p → s p ≠ none → s' p = s p) ∧
    (∀ p, s p = none → s' p ≠ none → p ∈ leftovers.map (·.path)) ∧
    ∀ leftover ∈ leftovers, ∃ path ∈ contents.map (·.1),
      BackupOf base contents s s' path leftover.path
  | .error ⟨.partlyApplied _ _ retained, _⟩ =>
    ∀ p c, s p = some c → s' p = some c ∨ ∃ backup ∈ retained, s' backup = some c
  | .error ⟨_, leftovers⟩ => Unchanged s s' leftovers

/-! ## The files in path order -/

omit [DecidableEq Path] in
theorem getElem?_insertMany (pairs : List (Text × Bytes)) (map : TreeMap Text Bytes compare)
    (path : Text) : (map.insertMany pairs)[path]? = (pairs.reverse.lookup path).or map[path]? := by
  induction pairs generalizing map with
  | nil => simp
  | cons pair pairs ih =>
    obtain ⟨other, bytes⟩ := pair
    rw [TreeMap.insertMany_cons, ih, TreeMap.getElem?_insert, List.reverse_cons, List.lookup_append]
    by_cases hother : other = path
    · subst hother
      cases pairs.reverse.lookup other <;> simp
    · have hcompare : compare other path ≠ .eq := fun heq => hother (compare_eq_iff_eq.mp heq)
      have hne : (path == other) = false := by simpa using Ne.symm hother
      simp [hcompare, List.lookup_cons, hne]

omit [DecidableEq Path] in
theorem file_mem_fileMap {contents : List (Text × Bytes)} {path : Text} {bytes : Bytes} :
    (path, bytes) ∈ fileMap contents ↔ contents.reverse.lookup path = some bytes := by
  rw [fileMap, TreeMap.mem_toList_iff_getElem?_eq_some, TreeMap.ofList_eq_insertMany_empty,
    getElem?_insertMany]
  simp

omit [DecidableEq Path] in
theorem pairwise_fileMap (contents : List (Text × Bytes)) :
    (fileMap contents).Pairwise fun a b => compare a.1 b.1 = .lt :=
  TreeMap.ordered_keys_toList

/-- The first files in path order, those whose paths count. -/
structure Front (contents front : List (Text × Bytes)) (among : Text → Prop) : Prop where
  sublist : front.Sublist (fileMap contents)
  mem_iff : ∀ file, file ∈ front ↔ file ∈ fileMap contents ∧ among file.1

section Front

variable {base : Base Path Refusal} {contents front : List (Text × Bytes)} {among : Text → Prop}

omit [DecidableEq Path] in
theorem Front.whole : Front contents (fileMap contents) fun _ => True :=
  ⟨List.Sublist.refl _, by simp⟩

omit [DecidableEq Path] in
/-- The files before a file are those of the lesser paths. -/
theorem Front.before {file : Text × Bytes} {back : List (Text × Bytes)}
    (h : fileMap contents = front ++ file :: back) : Front contents front (compare · file.1 = .lt) := by
  have hsorted := pairwise_fileMap contents
  rw [h, List.pairwise_append, List.pairwise_cons] at hsorted
  refine ⟨h ▸ List.sublist_append_left _ _, fun other => ?_⟩
  rw [h, List.mem_append, List.mem_cons]
  constructor
  · exact fun hother => ⟨.inl hother, hsorted.2.2 other hother file List.mem_cons_self⟩
  · rintro ⟨hother | rfl | hother, hlt⟩
    · exact hother
    · simp at hlt
    · have hgt := OrientedCmp.gt_of_lt (hsorted.2.1.1 other hother)
      simp [hgt] at hlt

theorem Front.lastBytes_eq_none [DecidableEq Refusal] (hfront : Front contents front among)
    {target : Path} (h : ¬Names base contents among target) : lastBytes base front target = none := by
  have hnone : front.filter (fun file => base.containedPath file.1 = .ok target) = [] := by
    refine List.filter_eq_nil_iff.mpr fun file hfile htarget => h ?_
    obtain ⟨hmem, hamong⟩ := (hfront.mem_iff file).mp hfile
    exact ⟨file.1, mem_fileMap.mp (List.mem_map_of_mem hmem), hamong, by simpa using htarget⟩
  rw [lastBytes, hnone]
  rfl

theorem Front.lastBytes_eq_some [DecidableEq Refusal] (hfront : Front contents front among)
    {target : Path} {bytes : Bytes} (h : Gives base contents among target bytes) :
    lastBytes base front target = some bytes := by
  obtain ⟨path, hamong, htarget, hbytes, hlast⟩ := h
  have hmem : (path, bytes) ∈ front.filter (fun file => base.containedPath file.1 = .ok target) :=
    List.mem_filter.mpr
      ⟨(hfront.mem_iff _).mpr ⟨file_mem_fileMap.mpr hbytes, hamong⟩, by simpa using htarget⟩
  have hsorted : (front.filter fun file => base.containedPath file.1 = .ok target).Pairwise
      fun a b => compare a.1 b.1 = .lt :=
    (pairwise_fileMap contents).sublist (List.filter_sublist.trans hfront.sublist)
  have hbelow : ∀ file ∈ front.filter (fun file => base.containedPath file.1 = .ok target),
      compare file.1 path ≠ .gt := by
    intro file hfile
    obtain ⟨hfile, hfileTarget⟩ := List.mem_filter.mp hfile
    obtain ⟨hmem, hcounts⟩ := (hfront.mem_iff file).mp hfile
    exact hlast file.1 (mem_fileMap.mp (List.mem_map_of_mem hmem)) hcounts (by simpa using hfileTarget)
  rw [lastBytes]
  generalize front.filter (fun file => base.containedPath file.1 = .ok target) = files
    at hmem hsorted hbelow ⊢
  obtain rfl | ⟨init, last, rfl⟩ := files.eq_nil_or_concat
  · cases hmem
  rw [List.concat_eq_append] at hmem hsorted hbelow ⊢
  rcases List.mem_append.mp hmem with hinit | hlast'
  · -- the last file would have a greater path
    have hlt := (List.pairwise_append.mp hsorted).2.2 _ hinit last (List.mem_singleton_self last)
    exact absurd (OrientedCmp.gt_of_lt hlt) (hbelow last (by simp))
  · simp [← List.mem_singleton.mp hlast']

end Front

/-! ## Cleanup -/

section Steps

variable {steps : Steps W Path} {store : W → Path → Option Bytes} (atomic : Atomic steps store)

structure Discarded (store : W → Path → Option Bytes) (paths : List Path) (w : W)
    (leftovers : List (Leftover Path)) (w' : W) : Prop where
  frame : ∀ p, p ∉ paths → store w' p = store w p
  gone : ∀ p ∈ paths, store w' p = none ∨ p ∈ leftovers.map (·.path)
  kept : paths.Nodup → ∀ p ∈ leftovers.map (·.path), p ∈ paths ∧ store w' p = store w p

include atomic in
theorem discard_discarded {paths : List Path} {w w' : W} {leftovers : List (Leftover Path)}
    (h : discard steps paths w = (leftovers, w')) : Discarded store paths w leftovers w' := by
  induction paths generalizing w leftovers with
  | nil =>
    obtain ⟨rfl, rfl⟩ := Prod.mk.injEq .. ▸ h
    exact ⟨fun _ _ => rfl, by simp, by simp⟩
  | cons path paths ih =>
    unfold discard at h
    rcases hr : steps.remove path w with ⟨_ | ⟨⟩, w₁⟩
    · rcases hd : discard steps paths w₁ with ⟨leftovers₁, w₂⟩
      simp only [hr, hd, Prod.mk.injEq] at h
      obtain ⟨rfl, rfl⟩ := h
      have hs := atomic.remove_error hr
      obtain ⟨frame, gone, kept⟩ := ih hd
      refine ⟨?_, ?_, ?_⟩
      · intro p hp
        rw [frame p (by simp_all), hs]
      · intro p hp
        by_cases hpp : p = path
        · simp [hpp]
        · rcases gone p (by simp_all) with hg | hg
          · exact .inl hg
          · exact .inr (by simp [hg])
      · intro hnd p hp
        obtain ⟨hn, hnd⟩ := List.nodup_cons.mp hnd
        simp only [List.map_cons, List.mem_cons] at hp
        rcases hp with rfl | hp
        · exact ⟨by simp, by rw [frame _ hn, hs]⟩
        · exact ⟨by simp [(kept hnd p hp).1], by rw [(kept hnd p hp).2, hs]⟩
    · simp only [hr] at h
      have hs := atomic.remove_ok hr
      obtain ⟨frame, gone, kept⟩ := ih h
      refine ⟨?_, ?_, ?_⟩
      · intro p hp
        rw [frame p (by simp_all), hs, Function.update_of_ne (by simp_all)]
      · intro p hp
        by_cases hpp : p ∈ paths
        · exact gone p hpp
        · have : p = path := by simp_all
          left
          rw [frame p hpp, hs, this, Function.update_self]
      · intro hnd p hp
        obtain ⟨hn, hnd⟩ := List.nodup_cons.mp hnd
        obtain ⟨hin, hk⟩ := kept hnd p hp
        refine ⟨by simp [hin], ?_⟩
        rw [hk, hs, Function.update_of_ne (by rintro rfl; exact hn hin)]

/-! ## The restore -/

/-- Where the original content of `p` lies after the first moves of `completed`: at the backup of
the earliest of them that moved `p`, or still at `p`. -/
def home (completed : List (Path × Path)) (p : Path) : Path :=
  ((completed.find? (fun pair => pair.2 = p)).map (·.1)).getD p

theorem home_eq_self {completed : List (Path × Path)} {p : Path}
    (h : p ∉ completed.map (·.2)) : home completed p = p := by
  have : completed.find? (fun pair => pair.2 = p) = none := by
    simp only [List.find?_eq_none, decide_eq_true_eq]
    rintro pair hpair rfl
    exact h (List.mem_map_of_mem hpair)
  simp [home, this]

theorem home_snoc (completed : List (Path × Path)) (backup target p : Path) :
    home (completed ++ [(backup, target)]) p =
      if p ∈ completed.map (·.2) then home completed p else if target = p then backup else p := by
  unfold home
  rw [List.find?_append]
  by_cases h : p ∈ completed.map (·.2)
  · obtain ⟨pair, hpair, hp⟩ := List.mem_map.mp h
    obtain ⟨found, hfound⟩ : ∃ found, completed.find? (fun pair => pair.2 = p) = some found :=
      Option.isSome_iff_exists.mp (by
        rw [List.find?_isSome]
        exact ⟨pair, hpair, by simpa using hp⟩)
    simp [h, hfound]
  · have hnone : completed.find? (fun pair => pair.2 = p) = none := by
      simp only [List.find?_eq_none, decide_eq_true_eq]
      rintro pair hpair rfl
      exact h (List.mem_map_of_mem hpair)
    by_cases ht : target = p <;> simp [h, hnone, ht]

theorem home_mem {completed : List (Path × Path)} {p : Path} (h : p ∈ completed.map (·.2)) :
    home completed p ∈ completed.map (·.1) := by
  obtain ⟨pair, hpair, hp⟩ := List.mem_map.mp h
  obtain ⟨found, hfound⟩ : ∃ found, completed.find? (fun pair => pair.2 = p) = some found :=
    Option.isSome_iff_exists.mp (by
      rw [List.find?_isSome]
      exact ⟨pair, hpair, by simpa using hp⟩)
  simp only [home, hfound, Option.map_some, Option.getD_some]
  exact List.mem_map_of_mem (List.mem_of_find?_eq_some hfound)

/-- The moves of one restore, `pairs` being in the order they are tried. -/
structure BroughtBack (store : W → Path → Option Bytes) (pairs : List (Path × Path)) (w : W)
    (retained : List Path) (w' : W) : Prop where
  frame : ∀ p, p ∉ pairs.map (·.1) → p ∉ pairs.map (·.2) → store w' p = store w p
  moved : ∀ p ∈ pairs.map (·.1), store w' p = none ∨ p ∈ retained
  named : ∀ p ∈ retained, p ∈ pairs.map (·.1)
  back : ∀ p c, p ∉ pairs.map (·.1) → store w (home pairs.reverse p) = some c →
    store w' p = some c ∨
      (home pairs.reverse p ∈ retained ∧ store w' (home pairs.reverse p) = some c)

/-- A move back that failed: the backup is retained, and the later moves leave it alone. -/
theorem BroughtBack.failed {pairs : List (Path × Path)} {backup target : Path} {w w₁ w' : W}
    {retained : List Path} (hs : store w₁ = store w) (hfresh : backup ∉ pairs.map (·.1))
    (hbt : backup ∉ pairs.map (·.2)) (h : BroughtBack store pairs w₁ retained w') :
    BroughtBack store ((backup, target) :: pairs) w (backup :: retained) w' := by
  obtain ⟨frame, moved, named, back⟩ := h
  refine ⟨?_, ?_, ?_, ?_⟩
  · intro p hp hp'
    simp only [List.map_cons, List.mem_cons, not_or] at hp hp'
    rw [frame p hp.2 hp'.2, hs]
  · intro p hp
    simp only [List.map_cons, List.mem_cons] at hp
    rcases hp with rfl | hp
    · simp
    · exact (moved p hp).imp_right (List.mem_cons_of_mem _)
  · intro p hp
    rcases List.mem_cons.mp hp with rfl | hp
    · simp
    · exact List.mem_cons_of_mem _ (named p hp)
  · intro p c hp hhome
    simp only [List.map_cons, List.mem_cons, not_or] at hp
    simp only [List.reverse_cons, home_snoc, List.map_reverse, List.mem_reverse] at hhome ⊢
    by_cases hin : p ∈ pairs.map (·.2)
    · simp only [hin, if_true] at hhome ⊢
      exact (back p c hp.2 (by rwa [hs])).imp_right
        (fun hb => ⟨List.mem_cons_of_mem _ hb.1, hb.2⟩)
    · simp only [hin, if_false] at hhome ⊢
      by_cases ht : target = p
      · simp only [ht, if_true] at hhome ⊢
        exact .inr ⟨by simp, by rw [frame _ hfresh hbt, hs, hhome]⟩
      · simp only [ht, if_false] at hhome ⊢
        exact .inl (by rw [frame p hp.2 hin, hs, hhome])

/-- A move back that succeeded: the content is at its target, and the backup is gone. -/
theorem BroughtBack.returned {pairs : List (Path × Path)} {backup target : Path} {w w₁ w' : W}
    {retained : List Path} {bytes : Bytes} (hb : store w backup = some bytes)
    (hs : store w₁ = Function.update (Function.update (store w) backup none) target (some bytes))
    (hfresh : backup ∉ pairs.map (·.1)) (hbt : backup ∉ target :: pairs.map (·.2))
    (htb : target ∉ pairs.map (·.1)) (h : BroughtBack store pairs w₁ retained w') :
    BroughtBack store ((backup, target) :: pairs) w retained w' := by
  obtain ⟨frame, moved, named, back⟩ := h
  simp only [List.mem_cons, not_or] at hbt
  have hs' : ∀ p, p ≠ backup → p ≠ target → store w₁ p = store w p := fun p hpb hpt => by
    rw [hs, Function.update_of_ne hpt, Function.update_of_ne hpb]
  refine ⟨?_, ?_, fun p hp => List.mem_cons_of_mem _ (named p hp), ?_⟩
  · intro p hp hp'
    simp only [List.map_cons, List.mem_cons, not_or] at hp hp'
    rw [frame p hp.2 hp'.2, hs' p hp.1 hp'.1]
  · intro p hp
    simp only [List.map_cons, List.mem_cons] at hp
    rcases hp with rfl | hp
    · left
      rw [frame _ hfresh hbt.2, hs, Function.update_of_ne hbt.1, Function.update_self]
    · exact moved p hp
  · intro p c hp hhome
    simp only [List.map_cons, List.mem_cons, not_or] at hp
    simp only [List.reverse_cons, home_snoc, List.map_reverse, List.mem_reverse] at hhome ⊢
    by_cases hin : p ∈ pairs.map (·.2)
    · simp only [hin, if_true] at hhome ⊢
      have hhm : home pairs.reverse p ∈ pairs.map (·.1) := by
        have hin' : p ∈ pairs.reverse.map (·.2) := by simpa using hin
        simpa using home_mem hin'
      refine back p c hp.2 ?_
      rw [hs' _ (fun e => hfresh (e ▸ hhm)) (fun e => htb (e ▸ hhm)), hhome]
    · simp only [hin, if_false] at hhome ⊢
      left
      by_cases ht : target = p
      · simp only [ht, if_true] at hhome
        rw [frame p hp.2 hin, hs, ht, Function.update_self, ← hb, hhome]
      · simp only [ht, if_false] at hhome
        rw [frame p hp.2 hin, hs' p hp.1 (Ne.symm ht), hhome]

include atomic in
theorem restore_broughtBack {pairs : List (Path × Path)} {w w' : W} {retained : List Path}
    (hnd : (pairs.map (·.1)).Nodup) (hdisj : ∀ p ∈ pairs.map (·.1), p ∉ pairs.map (·.2))
    (h : restore steps pairs w = (retained, w')) : BroughtBack store pairs w retained w' := by
  induction pairs generalizing w retained with
  | nil =>
    obtain ⟨rfl, rfl⟩ := Prod.mk.injEq .. ▸ h
    exact ⟨fun _ _ _ => rfl, by simp, by simp, fun p c _ hp => .inl (by simpa [home] using hp)⟩
  | cons pair pairs ih =>
    obtain ⟨backup, target⟩ := pair
    simp only [List.map_cons, List.nodup_cons] at hnd
    have hbt : backup ∉ target :: pairs.map (·.2) := hdisj backup (by simp)
    have htb : target ∉ pairs.map (·.1) := fun e =>
      hdisj target (List.mem_cons_of_mem _ e) (by simp)
    have hdisj' : ∀ p ∈ pairs.map (·.1), p ∉ pairs.map (·.2) := fun p hp hp' =>
      hdisj p (List.mem_cons_of_mem _ hp) (List.mem_cons_of_mem _ hp')
    unfold restore at h
    rcases hr : steps.rename backup target w with ⟨_ | ⟨⟩, w₁⟩
    · rcases hd : restore steps pairs w₁ with ⟨retained₁, w₂⟩
      simp only [hr, hd, Prod.mk.injEq] at h
      obtain ⟨rfl, rfl⟩ := h
      exact .failed (atomic.rename_error hr) hnd.1 (fun e => hbt (List.mem_cons_of_mem _ e))
        (ih hnd.2 hdisj' hd)
    · simp only [hr] at h
      obtain ⟨bytes, hb, hs⟩ := atomic.rename_ok hr
      exact .returned hb hs hnd.1 hbt htb (ih hnd.2 hdisj' h)

/-! ## The siblings -/

/-- The staged files of `files` over the store `s₀`, in the store `s`. A target is on disk when
its sibling is made, so it is neither that sibling nor a later one. -/
structure Siblings (base : Base Path Refusal) (s₀ : Path → Option Bytes)
    (files : List (Text × Bytes)) (staged : List (Staged Path)) (s : Path → Option Bytes) :
    Prop where
  resolved : files.map (fun file => base.containedPath file.1) =
    staged.map (fun one => .ok one.target)
  holds : files.map (fun file => some file.2) = staged.map (fun one => s one.staging)
  others : ∀ p, p ∉ staged.map (·.staging) → s p = s₀ p
  fresh : ∀ one ∈ staged, s₀ one.staging = none
  nodup : (staged.map (·.staging)).Nodup
  present : ∀ one ∈ staged, s one.target ≠ none
  own : ∀ one ∈ staged, one.target ≠ one.staging
  apart : staged.Pairwise (fun x y => x.target ≠ y.staging)

omit [DecidableEq Path] in
theorem Siblings.staging_ne_none {base : Base Path Refusal} {s₀ s : Path → Option Bytes}
    {files : List (Text × Bytes)} {staged : List (Staged Path)}
    (h : Siblings base s₀ files staged s) {one : Staged Path} (hone : one ∈ staged) :
    s one.staging ≠ none := by
  have hmem : s one.staging ∈ staged.map (fun one => s one.staging) := List.mem_map_of_mem hone
  rw [← h.holds] at hmem
  obtain ⟨file, -, hfile⟩ := List.mem_map.mp hmem
  simp [← hfile]

omit [DecidableEq Path] in
theorem Siblings.nil (base : Base Path Refusal) (s₀ : Path → Option Bytes) :
    Siblings base s₀ [] [] s₀ := by
  constructor <;> simp

theorem Siblings.snoc {base : Base Path Refusal} {s₀ s s' : Path → Option Bytes}
    {files : List (Text × Bytes)} {staged : List (Staged Path)} {path : Text} {bytes : Bytes}
    {one : Staged Path} (h : Siblings base s₀ files staged s)
    (hresolved : base.containedPath path = .ok one.target) (htarget : s one.target ≠ none)
    (hfree : s one.staging = none) (hs : s' = Function.update s one.staging (some bytes)) :
    Siblings base s₀ (files ++ [(path, bytes)]) (staged ++ [one]) s' := by
  have hnew : one.staging ∉ staged.map (·.staging) := by
    rintro hmem
    obtain ⟨other, hother, he⟩ := List.mem_map.mp hmem
    exact h.staging_ne_none hother (he ▸ hfree)
  have hkeep : ∀ p, s p ≠ none → s' p = s p := fun p hp => by
    rw [hs, Function.update_of_ne (by rintro rfl; exact hp hfree)]
  have hpresent : ∀ x ∈ staged ++ [one], s x.target ≠ none := by
    intro x hx
    rcases List.mem_append.mp hx with hx | hx
    · exact h.present x hx
    · simpa [List.mem_singleton.mp hx] using htarget
  refine ⟨?_, ?_, ?_, ?_, ?_, ?_, ?_, ?_⟩
  · simp [h.resolved, hresolved]
  · have : staged.map (fun one => s' one.staging) = staged.map (fun one => s one.staging) :=
      List.map_congr_left fun x hx => hkeep _ (h.staging_ne_none hx)
    rw [List.map_append, List.map_append, this, h.holds]
    simp [hs]
  · intro p hp
    simp only [List.map_append, List.map_cons, List.map_nil, List.mem_append,
      List.mem_singleton, not_or] at hp
    rw [hs, Function.update_of_ne hp.2, h.others p hp.1]
  · intro x hx
    rcases List.mem_append.mp hx with hx | hx
    · exact h.fresh x hx
    · rw [List.mem_singleton.mp hx, ← h.others _ hnew, hfree]
  · simp only [List.map_append, List.map_cons, List.map_nil]
    exact List.nodup_append.mpr ⟨h.nodup, by simp, by
      rintro a ha b hb rfl
      exact hnew (List.mem_singleton.mp hb ▸ ha)⟩
  · intro x hx
    rw [hkeep _ (hpresent x hx)]
    exact hpresent x hx
  · intro x hx
    rcases List.mem_append.mp hx with hx | hx
    · exact h.own x hx
    · rw [List.mem_singleton.mp hx]
      exact fun e => htarget (e ▸ hfree)
  · refine List.pairwise_append.mpr ⟨h.apart, by simp, ?_⟩
    intro x hx y hy
    rw [List.mem_singleton.mp hy]
    exact fun e => h.present x hx (e ▸ hfree)

include atomic in
theorem discardStaged_unchanged {base : Base Path Refusal} {s₀ : Path → Option Bytes}
    {files : List (Text × Bytes)} {staged : List (Staged Path)} {w w' : W}
    {leftovers : List (Leftover Path)} (hw : Siblings base s₀ files staged (store w))
    (h : discardStaged steps staged w = (leftovers, w')) :
    Unchanged s₀ (store w') leftovers := by
  obtain ⟨frame, gone, -⟩ := discard_discarded atomic h
  constructor
  · intro p c hp
    have hnew : p ∉ staged.map (·.staging) := by
      rintro hmem
      obtain ⟨one, hone, rfl⟩ := List.mem_map.mp hmem
      simp [hw.fresh one hone] at hp
    rw [frame p hnew, hw.others p hnew, hp]
  · intro p hp hp'
    by_cases hmem : p ∈ staged.map (·.staging)
    · exact (gone p hmem).resolve_left hp'
    · rw [frame p hmem, hw.others p hmem] at hp'
      exact absurd hp hp'

include atomic in
theorem stageFrom_outcome {base : Base Path Refusal} {s₀ : Path → Option Bytes}
    {before files : List (Text × Bytes)} {staged : List (Staged Path)} {w w' : W}
    {r : Except (WriteFailure Path Refusal) (List (Staged Path))}
    (hw : Siblings base s₀ before staged (store w))
    (h : stageFrom steps base files staged w = (r, w')) :
    (∃ staged, r = .ok staged ∧ Siblings base s₀ (before ++ files) staged (store w')) ∨
      ∃ failure, r = .error failure ∧ Kept s₀ (store w') failure := by
  induction files generalizing before staged w with
  | nil =>
    obtain ⟨rfl, rfl⟩ := Prod.mk.injEq .. ▸ h
    exact .inl ⟨staged, rfl, by simpa using hw⟩
  | cons file files ih =>
    obtain ⟨path, bytes⟩ := file
    unfold stageFrom stagePath stageOne at h
    cases hc : base.containedPath path with
    | error refusal =>
      rcases hd : discardStaged steps staged w with ⟨leftovers, w₁⟩
      simp only [hc, hd, Prod.mk.injEq] at h
      obtain ⟨rfl, rfl⟩ := h
      exact .inr ⟨_, rfl, discardStaged_unchanged atomic hw hd, by simp⟩
    | ok target =>
      rcases hst : steps.stage target bytes w with ⟨reason | staging, w₁⟩
      · rcases hd : discardStaged steps staged w₁ with ⟨leftovers, w₂⟩
        simp only [hc, hst, hd, Prod.mk.injEq] at h
        obtain ⟨rfl, rfl⟩ := h
        rw [← atomic.stage_error hst] at hw
        exact .inr ⟨_, rfl, discardStaged_unchanged atomic hw hd, by simp⟩
      · simp only [hc, hst] at h
        obtain ⟨htarget, hfree, hs⟩ := atomic.stage_ok hst
        have hsnoc : Siblings base s₀ (before ++ [(path, bytes)]) (staged ++ [⟨staging, target⟩])
            (store w₁) := hw.snoc hc (Option.isSome_iff_ne_none.mp htarget) hfree hs
        simpa using ih hsnoc h

/-- The backups reserved over the store `s₁`, in the store `s`. -/
structure Reserved (s₁ : Path → Option Bytes) (backups : List Path) (s : Path → Option Bytes) :
    Prop where
  fresh : ∀ backup ∈ backups, s₁ backup = none
  nodup : backups.Nodup
  taken : ∀ backup ∈ backups, s backup ≠ none
  others : ∀ p, p ∉ backups → s p = s₁ p

theorem Reserved.snoc {s₁ s s' : Path → Option Bytes} {backups : List Path} {backup : Path}
    (h : Reserved s₁ backups s) (hfree : s backup = none)
    (hs : s' = Function.update s backup (some [])) :
    Reserved s₁ (backups ++ [backup]) s' := by
  have hnew : backup ∉ backups := fun hmem => h.taken backup hmem hfree
  refine ⟨?_, ?_, ?_, ?_⟩
  · intro b hb
    rcases List.mem_append.mp hb with hb | hb
    · exact h.fresh b hb
    · rw [List.mem_singleton.mp hb, ← h.others _ hnew, hfree]
  · refine List.nodup_append.mpr ⟨h.nodup, by simp, ?_⟩
    rintro a ha b hb rfl
    exact hnew (List.mem_singleton.mp hb ▸ ha)
  · intro b hmem
    rcases List.mem_append.mp hmem with hb | hb
    · have hne : b ≠ backup := fun e => hnew (e ▸ hb)
      rw [hs, Function.update_of_ne hne]
      exact h.taken b hb
    · simp [hs, List.mem_singleton.mp hb]
  · intro p hp
    simp only [List.mem_append, List.mem_singleton, not_or] at hp
    rw [hs, Function.update_of_ne hp.2, h.others p hp.1]

include atomic in
theorem reserveFrom_outcome {base : Base Path Refusal} {s₀ s₁ : Path → Option Bytes}
    {files : List (Text × Bytes)} {staged rest : List (Staged Path)} {backups : List Path}
    {w w' : W} {r : Except (WriteFailure Path Refusal) (List Path)}
    (hstaged : Siblings base s₀ files staged s₁) (hw : Reserved s₁ backups (store w))
    (h : reserveFrom steps staged rest backups w = (r, w')) :
    (∃ reserved, r = .ok reserved ∧ reserved.length = backups.length + rest.length ∧
      Reserved s₁ reserved (store w')) ∨
      ∃ failure, r = .error failure ∧ Kept s₀ (store w') failure := by
  induction rest generalizing backups w with
  | nil =>
    obtain ⟨rfl, rfl⟩ := Prod.mk.injEq .. ▸ h
    exact .inl ⟨backups, rfl, rfl, hw⟩
  | cons one rest ih =>
    unfold reserveFrom at h
    rcases hr : steps.reserve one.target w with ⟨reason | backup, w₁⟩
    · rcases hd : discardStaged steps staged w₁ with ⟨left, w₂⟩
      rcases hd' : discard steps backups w₂ with ⟨more, w₃⟩
      simp only [hr, hd, hd', Prod.mk.injEq] at h
      obtain ⟨rfl, rfl⟩ := h
      rw [← atomic.reserve_error hr] at hw
      obtain ⟨frame, gone, -⟩ := discard_discarded atomic hd
      obtain ⟨frame', gone', -⟩ := discard_discarded atomic hd'
      refine .inr ⟨_, rfl, ⟨?_, ?_⟩, by simp⟩
      · intro p c hp
        have hsibling : p ∉ staged.map (·.staging) := by
          rintro hmem
          obtain ⟨one, hone, rfl⟩ := List.mem_map.mp hmem
          simp [hstaged.fresh one hone] at hp
        have hbackup : p ∉ backups := fun hmem => by
          have := hw.fresh p hmem
          rw [hstaged.others p hsibling, hp] at this
          cases this
        rw [frame' p hbackup, frame p hsibling, hw.others p hbackup,
          hstaged.others p hsibling, hp]
      · intro p hp hp'
        simp only [List.map_append, List.mem_append]
        by_cases hbackup : p ∈ backups
        · exact .inr ((gone' p hbackup).resolve_left hp')
        · rw [frame' p hbackup] at hp'
          by_cases hsibling : p ∈ staged.map (·.staging)
          · exact .inl ((gone p hsibling).resolve_left hp')
          · rw [frame p hsibling, hw.others p hbackup, hstaged.others p hsibling] at hp'
            exact absurd hp hp'
    · simp only [hr] at h
      obtain ⟨hfree, hs⟩ := atomic.reserve_ok hr
      rcases ih (hw.snoc hfree hs) h with ⟨reserved, rfl, hlen, hres⟩ | hfail
      · exact .inl ⟨reserved, rfl, by simp at hlen ⊢; omega, hres⟩
      · exact .inr hfail

/-! ## The moves -/

/-- The staged files and their backups before the first move. -/
structure Ready (s₀ : Path → Option Bytes) (entries : List (Staged Path × Path)) : Prop where
  staging_fresh : ∀ e ∈ entries, s₀ e.1.staging = none
  backup_fresh : ∀ e ∈ entries, s₀ e.2 = none
  staging_nodup : (entries.map (·.1.staging)).Nodup
  backup_nodup : (entries.map (·.2)).Nodup
  staging_ne_backup : ∀ x ∈ entries, ∀ y ∈ entries, x.1.staging ≠ y.2
  target_ne_backup : ∀ x ∈ entries, ∀ y ∈ entries, x.1.target ≠ y.2
  own : ∀ e ∈ entries, e.1.target ≠ e.1.staging
  apart : entries.Pairwise (fun x y => x.1.target ≠ y.1.staging)

/-- The backup and the target of each first move. -/
def completedOf (moved : List (Staged Path × Path)) : List (Path × Path) :=
  moved.map (fun e => (e.2, e.1.target))

theorem exists_home {moved : List (Staged Path × Path)} {p : Path}
    (h : p ∈ (completedOf moved).map (·.2)) : ∃ e ∈ moved, e.2 = home (completedOf moved) p := by
  simpa [completedOf] using home_mem h

omit [DecidableEq Path] in
theorem Ready.backup_ne {s₀ : Path → Option Bytes} {entries done rest : List (Staged Path × Path)}
    {e x : Staged Path × Path} (ready : Ready s₀ entries) (hentries : entries = done ++ e :: rest)
    (hx : x ∈ done) : x.2 ≠ e.2 := by
  have hnodup := ready.backup_nodup
  rw [hentries, List.map_append, List.nodup_append] at hnodup
  exact hnodup.2.2 _ (List.mem_map_of_mem hx) _ (by simp)

/-- What every store between two calls of the moves satisfies: `moved` have left their targets,
`rest` are still staged, and every original content is at its home. -/
structure Recoverable (s₀ : Path → Option Bytes) (entries moved rest : List (Staged Path × Path))
    (s : Path → Option Bytes) : Prop where
  origins : ∀ e ∈ moved, s₀ e.1.target ≠ none
  domain : ∀ p, s p ≠ none →
    s₀ p ≠ none ∨ p ∈ rest.map (·.1.staging) ∨ p ∈ entries.map (·.2)
  homes : ∀ p c, s₀ p = some c → s (home (completedOf moved) p) = some c

include atomic in
theorem undo_promise {base : Base Path Refusal}
    {contents : List (Text × Bytes)} {s₀ : Path → Option Bytes}
    {entries moved : List (Staged Path × Path)} {position : Nat} {reason : Text} {w w' : W}
    {failure : WriteFailure Path Refusal} (ready : Ready s₀ entries)
    (hmoved : moved.Sublist entries)
    (hw : Recoverable s₀ entries moved (entries.drop position) (store w))
    (h : undo steps base (entries.map (·.1)) (entries.map (·.2)) (completedOf moved) position
      reason w = (failure, w')) :
    Promise base contents s₀ (store w') (.error failure) := by
  unfold undo rollBack at h
  rcases hr : restore steps (completedOf moved).reverse w with ⟨retained, w₁⟩
  rcases hd : discardStaged steps ((entries.map (·.1)).drop position) w₁ with ⟨left, w₂⟩
  rcases hd' : discard steps ((entries.map (·.2)).filter
    (fun backup => backup ∉ (completedOf moved).map (·.1))) w₂ with ⟨more, w₃⟩
  simp only [hr, hd, hd', Prod.mk.injEq] at h
  obtain ⟨rfl, rfl⟩ := h
  have hfst : (completedOf moved).map (·.1) = moved.map (·.2) := by simp [completedOf]
  have hsnd : (completedOf moved).map (·.2) = moved.map (·.1.target) := by simp [completedOf]
  have hback : BroughtBack store (completedOf moved).reverse w retained w₁ := by
    refine restore_broughtBack atomic ?_ ?_ hr
    · rw [List.map_reverse, hfst, List.nodup_reverse]
      exact ready.backup_nodup.sublist (hmoved.map _)
    · intro p hp hp'
      simp only [List.map_reverse, List.mem_reverse, hfst, hsnd] at hp hp'
      obtain ⟨x, hx, rfl⟩ := List.mem_map.mp hp
      obtain ⟨y, hy, he⟩ := List.mem_map.mp hp'
      exact ready.target_ne_backup y (hmoved.subset hy) x (hmoved.subset hx) he
  obtain ⟨bframe, bmoved, bnamed, bback⟩ := hback
  simp only [List.map_reverse, List.mem_reverse, List.reverse_reverse, hfst, hsnd] at *
  obtain ⟨frame, gone, -⟩ := discard_discarded atomic hd
  obtain ⟨frame', gone', -⟩ := discard_discarded atomic hd'
  have hdrop : ((entries.map (·.1)).drop position).map (·.staging) =
      (entries.drop position).map (·.1.staging) := by
    simp [← List.map_drop, Function.comp_def]
  rw [hdrop] at frame gone
  -- The discards touch neither an original file nor a retained backup.
  have horiginal : ∀ p, s₀ p ≠ none → p ∉ moved.map (·.2) ∧ store w₃ p = store w₁ p := by
    intro p hp
    have hb : p ∉ entries.map (·.2) := by
      rintro hmem
      obtain ⟨e, he, rfl⟩ := List.mem_map.mp hmem
      exact hp (ready.backup_fresh e he)
    have hst : p ∉ (entries.drop position).map (·.1.staging) := by
      rintro hmem
      obtain ⟨e, he, rfl⟩ := List.mem_map.mp hmem
      exact hp (ready.staging_fresh e (List.mem_of_mem_drop he))
    refine ⟨fun hmem => hb ((hmoved.map _).subset hmem), ?_⟩
    rw [frame' p (fun hmem => hb (List.mem_of_mem_filter hmem)), frame p hst]
  have hretained : ∀ b ∈ retained, store w₃ b = store w₁ b := by
    intro b hb
    have hmem := bnamed b hb
    obtain ⟨x, hx, rfl⟩ := List.mem_map.mp hmem
    rw [frame' _ (by simp [hmem]), frame]
    rintro hst
    obtain ⟨y, hy, he⟩ := List.mem_map.mp hst
    exact ready.staging_ne_backup y (List.mem_of_mem_drop hy) x (hmoved.subset hx) he
  have hkept : ∀ p c, s₀ p = some c → store w₃ p = some c ∨
      ∃ backup ∈ retained, store w₃ backup = some c := by
    intro p c hp
    obtain ⟨hnb, hsame⟩ := horiginal p (by simp [hp])
    rcases bback p c hnb (hw.homes p c hp) with hb | ⟨hb, hc⟩
    · exact .inl (hsame.trans hb)
    · exact .inr ⟨_, hb, (hretained _ hb).trans hc⟩
  cases retained with
  | cons b bs => exact hkept
  | nil =>
    refine ⟨fun p c hp => by simpa using hkept p c hp, ?_⟩
    intro p hp hp'
    simp only [List.map_append, List.mem_append]
    by_cases hunused : p ∈ (entries.map (·.2)).filter (fun b => b ∉ moved.map (·.2))
    · exact .inr ((gone' p hunused).resolve_left hp')
    · rw [frame' p hunused] at hp'
      by_cases hst : p ∈ (entries.drop position).map (·.1.staging)
      · exact .inl ((gone p hst).resolve_left hp')
      · rw [frame p hst] at hp'
        have hnb : p ∉ moved.map (·.2) := fun hmem =>
          hp' ((bmoved p hmem).resolve_right (by simp))
        have hnt : p ∉ moved.map (·.1.target) := by
          rintro hmem
          obtain ⟨e, he, rfl⟩ := List.mem_map.mp hmem
          exact hw.origins e he hp
        rw [bframe p hnb hnt] at hp'
        rcases hw.domain p hp' with hd₀ | hd₁ | hd₂
        · exact absurd hp hd₀
        · exact absurd hd₁ hst
        · exact absurd (List.mem_filter.mpr ⟨hd₂, by simpa using hnb⟩) hunused

/-- What `p` holds once `done` are in place, each with the content `s₁` has at its staging. -/
def latest (s₀ s₁ : Path → Option Bytes) (done : List (Staged Path × Path)) (p : Path) :
    Option Bytes :=
  ((done.filter (fun e => e.1.target = p)).getLast?.map (fun e => s₁ e.1.staging)).getD (s₀ p)

theorem latest_snoc (s₀ s₁ : Path → Option Bytes) (done : List (Staged Path × Path))
    (e : Staged Path × Path) (p : Path) :
    latest s₀ s₁ (done ++ [e]) p =
      if e.1.target = p then s₁ e.1.staging else latest s₀ s₁ done p := by
  by_cases h : e.1.target = p <;> simp [latest, List.filter_append, h]

/-- The invariant of the moves: `done` are in place and `rest` are still staged as in `s₁`. -/
structure Moving (s₀ s₁ : Path → Option Bytes) (entries done rest : List (Staged Path × Path))
    (s : Path → Option Bytes) : Prop extends Recoverable s₀ entries done rest s where
  staged : ∀ e ∈ rest, s e.1.staging = s₁ e.1.staging
  backed : ∀ e ∈ entries, s e.2 ≠ none
  held : ∀ before e after, done = before ++ e :: after → s e.2 = latest s₀ s₁ before e.1.target
  current : ∀ p, s₀ p ≠ none → s p = latest s₀ s₁ done p

/-- The first move of an entry. Its target held an original, because the siblings of the entries
before it have moved away. -/
theorem Moving.first {s₀ s₁ s s' : Path → Option Bytes}
    {entries done rest : List (Staged Path × Path)} {e : Staged Path × Path} {bytes : Bytes}
    (ready : Ready s₀ entries) (hentries : entries = done ++ e :: rest)
    (hs : Moving s₀ s₁ entries done (e :: rest) s) (hb : s e.1.target = some bytes)
    (hs' : s' = Function.update (Function.update s e.1.target none) e.2 (some bytes)) :
    Recoverable s₀ entries (done ++ [e]) (e :: rest) s' := by
  have he : e ∈ entries := by simp [hentries]
  have htb : e.1.target ≠ e.2 := ready.target_ne_backup e he e he
  have horigin : s₀ e.1.target ≠ none := by
    rcases hs.domain e.1.target (by simp [hb]) with h | h | h
    · exact h
    · obtain ⟨x, hx, hxe⟩ := List.mem_map.mp h
      have hpair := ready.apart
      rw [hentries, List.pairwise_append] at hpair
      rcases List.mem_cons.mp hx with rfl | hx
      · exact absurd hxe.symm (ready.own x he)
      · exact absurd hxe.symm ((List.pairwise_cons.mp hpair.2.1).1 x hx)
    · obtain ⟨x, hx, hxe⟩ := List.mem_map.mp h
      exact absurd hxe.symm (ready.target_ne_backup e he x hx)
  refine ⟨?_, ?_, ?_⟩
  · intro x hx
    rcases List.mem_append.mp hx with hx | hx
    · exact hs.origins x hx
    · rwa [List.mem_singleton.mp hx]
  · intro p hp
    by_cases hpb : p = e.2
    · exact .inr (.inr (hpb ▸ List.mem_map_of_mem he))
    · by_cases hpt : p = e.1.target
      · exact .inl (hpt ▸ horigin)
      · rw [hs', Function.update_of_ne hpb, Function.update_of_ne hpt] at hp
        exact hs.domain p hp
  · intro p c hp
    have hcompleted : completedOf (done ++ [e]) = completedOf done ++ [(e.2, e.1.target)] := by
      simp [completedOf]
    have hhome := hs.homes p c hp
    have hpb : p ≠ e.2 := by rintro rfl; simp [ready.backup_fresh e he] at hp
    rw [hcompleted, home_snoc]
    by_cases hin : p ∈ (completedOf done).map (·.2)
    · -- An earlier entry has the same target, so its backup keeps the original.
      rw [if_pos hin]
      obtain ⟨x, hx, hxe⟩ := exists_home hin
      have hxmem : x ∈ entries := by simp [hentries, hx]
      rw [← hxe] at hhome ⊢
      rw [hs', Function.update_of_ne (ready.backup_ne hentries hx),
        Function.update_of_ne (ready.target_ne_backup e he x hxmem).symm, hhome]
    · rw [if_neg hin]
      rw [home_eq_self hin] at hhome
      by_cases ht : e.1.target = p
      · rw [if_pos ht, hs', Function.update_self, ← hb, ht, hhome]
      · rw [if_neg ht, hs', Function.update_of_ne hpb, Function.update_of_ne (Ne.symm ht), hhome]

theorem Moving.second {s₀ s₁ s s' s'' : Path → Option Bytes}
    {entries done rest : List (Staged Path × Path)} {e : Staged Path × Path} {old new : Bytes}
    (ready : Ready s₀ entries) (hentries : entries = done ++ e :: rest)
    (hs : Moving s₀ s₁ entries done (e :: rest) s)
    (hold : s e.1.target = some old)
    (hs' : s' = Function.update (Function.update s e.1.target none) e.2 (some old))
    (hnew : s' e.1.staging = some new)
    (hs'' : s'' = Function.update (Function.update s' e.1.staging none) e.1.target (some new)) :
    Moving s₀ s₁ entries (done ++ [e]) rest s'' := by
  have hfirst := hs.first ready hentries hold hs'
  have he : e ∈ entries := by simp [hentries]
  have hst : e.1.target ≠ e.1.staging := ready.own e he
  have hrest : ∀ x ∈ rest, x ∈ entries := fun x hx => by simp [hentries, hx]
  have horigin : s₀ e.1.target ≠ none := hfirst.origins e (by simp)
  have hs₁ : s₁ e.1.staging = some new := by
    rw [← hs.staged e (by simp), ← hnew, hs',
      Function.update_of_ne (ready.staging_ne_backup e he e he),
      Function.update_of_ne (Ne.symm hst)]
  have hnd : e.1.staging ∉ rest.map (·.1.staging) := by
    have hnd := ready.staging_nodup
    rw [hentries, List.map_append, List.nodup_append] at hnd
    exact (List.nodup_cons.mp hnd.2.1).1
  have hbackups (x : Staged Path × Path) (hx : x ∈ entries) :
      s'' x.2 = if x.2 = e.2 then some old else s x.2 := by
    rw [hs'', Function.update_of_ne (ready.target_ne_backup e he x hx).symm,
      Function.update_of_ne (ready.staging_ne_backup e he x hx).symm, hs']
    split_ifs with hxe
    · rw [hxe, Function.update_self]
    · rw [Function.update_of_ne hxe, Function.update_of_ne (ready.target_ne_backup e he x hx).symm]
  refine ⟨⟨hfirst.origins, ?_, ?_⟩, ?_, ?_, ?_, ?_⟩
  · intro p hp
    by_cases hpt : p = e.1.target
    · exact .inl (hpt ▸ horigin)
    · rw [hs'', Function.update_of_ne hpt] at hp
      have hpst : p ≠ e.1.staging := by rintro rfl; simp at hp
      rw [Function.update_of_ne hpst] at hp
      rcases hfirst.domain p hp with h | h | h
      · exact .inl h
      · exact .inr (.inl (by simpa [hpst] using h))
      · exact .inr (.inr h)
  · intro p c hp
    have hhome := hfirst.homes p c hp
    have hmem : home (completedOf (done ++ [e])) p ≠ e.1.target ∧
        home (completedOf (done ++ [e])) p ≠ e.1.staging := by
      by_cases hin : p ∈ (completedOf (done ++ [e])).map (·.2)
      · obtain ⟨x, hx, hxe⟩ := exists_home hin
        have hx : x ∈ entries := by
          rw [hentries, List.append_cons]
          exact List.mem_append_left _ hx
        rw [← hxe]
        exact ⟨(ready.target_ne_backup e he x hx).symm, (ready.staging_ne_backup e he x hx).symm⟩
      · rw [home_eq_self hin]
        refine ⟨?_, ?_⟩
        · rintro rfl
          exact hin (by simp [completedOf])
        · rintro rfl
          simp [ready.staging_fresh e he] at hp
    rw [hs'', Function.update_of_ne hmem.1, Function.update_of_ne hmem.2, hhome]
  · intro x hx
    have hxs : x.1.staging ≠ e.1.staging := fun h => hnd (h ▸ List.mem_map_of_mem hx)
    have hxt : x.1.staging ≠ e.1.target := fun h =>
      horigin (h ▸ ready.staging_fresh x (hrest x hx))
    rw [hs'', Function.update_of_ne hxt, Function.update_of_ne hxs, hs',
      Function.update_of_ne (ready.staging_ne_backup x (hrest x hx) e he),
      Function.update_of_ne hxt, hs.staged x (by simp [hx])]
  · intro x hx
    rw [hbackups x hx]
    split_ifs
    · simp
    · exact hs.backed x hx
  · intro before x after hsplit
    rcases after.eq_nil_or_concat with rfl | ⟨after, last, rfl⟩
    · -- the last move: its target held what the moves before it left there
      obtain ⟨rfl, hlast⟩ := List.append_inj' hsplit rfl
      obtain rfl := (List.cons.inj hlast).1
      rw [hbackups e he, if_pos rfl, ← hold, hs.current _ horigin]
    · rw [List.concat_eq_append, ← List.cons_append, ← List.append_assoc] at hsplit
      obtain ⟨rfl, -⟩ := List.append_inj' hsplit rfl
      have hx : x ∈ before ++ x :: after := by simp
      rw [hbackups x (hentries ▸ List.mem_append_left _ hx), if_neg (ready.backup_ne hentries hx)]
      exact hs.held before x after rfl
  · intro p hp
    rw [latest_snoc]
    by_cases ht : e.1.target = p
    · rw [if_pos ht, hs'', ht, Function.update_self, hs₁]
    · rw [if_neg ht, hs'', Function.update_of_ne (Ne.symm ht),
        Function.update_of_ne (by rintro rfl; exact hp (ready.staging_fresh e he)), hs',
        Function.update_of_ne (by rintro rfl; exact hp (ready.backup_fresh e he)),
        Function.update_of_ne (Ne.symm ht), hs.current p hp]

include atomic in
theorem replaceFrom_outcome {base : Base Path Refusal}
    {contents : List (Text × Bytes)} {s₀ s₁ : Path → Option Bytes}
    {entries done rest : List (Staged Path × Path)} {w w' : W}
    {r : Except (WriteFailure Path Refusal) Unit}
    (ready : Ready s₀ entries) (hentries : entries = done ++ rest)
    (hw : Moving s₀ s₁ entries done rest (store w))
    (h : replaceFrom steps base (entries.map (·.1)) (entries.map (·.2)) rest done.length
      (completedOf done) w = (r, w')) :
    (r = .ok () ∧ Moving s₀ s₁ entries entries [] (store w')) ∨
      ∃ failure, r = .error failure ∧
        Promise base contents s₀ (store w') (.error failure) := by
  induction rest generalizing done w with
  | nil =>
    obtain ⟨rfl, rfl⟩ := Prod.mk.injEq .. ▸ h
    have : done = entries := by simp [hentries]
    exact .inl ⟨rfl, by rwa [this] at hw⟩
  | cons e rest ih =>
    have hdrop : entries.drop done.length = e :: rest := by simp [hentries]
    unfold replaceFrom at h
    rcases hr : steps.rename e.1.target e.2 w with ⟨reason | ⟨⟩, w₁⟩
    · rcases hu : undo steps base (entries.map (·.1)) (entries.map (·.2)) (completedOf done)
        done.length reason w₁ with ⟨failure, w₂⟩
      simp only [hr, hu, Prod.mk.injEq] at h
      obtain ⟨rfl, rfl⟩ := h
      refine .inr ⟨failure, rfl, undo_promise atomic ready ?_ ?_ hu⟩
      · rw [hentries]
        exact List.sublist_append_left _ _
      · rw [hdrop, atomic.rename_error hr]
        exact hw.toRecoverable
    · obtain ⟨old, hold, hs₁⟩ := atomic.rename_ok hr
      have hcompleted : completedOf done ++ [(e.2, e.1.target)] = completedOf (done ++ [e]) := by
        simp [completedOf]
      rcases hr' : steps.rename e.1.staging e.1.target w₁ with ⟨reason | ⟨⟩, w₂⟩
      · rcases hu : undo steps base (entries.map (·.1)) (entries.map (·.2))
          (completedOf (done ++ [e])) done.length reason w₂ with ⟨failure, w₃⟩
        simp only [hr, hr', hcompleted, hu, Prod.mk.injEq] at h
        obtain ⟨rfl, rfl⟩ := h
        refine .inr ⟨failure, rfl, undo_promise atomic ready ?_ ?_ hu⟩
        · rw [hentries, List.append_cons done e rest]
          exact List.sublist_append_left _ _
        · rw [hdrop, atomic.rename_error hr']
          exact hw.first ready hentries hold hs₁
      · simp only [hr, hr', hcompleted] at h
        obtain ⟨new, hnew, hs₂⟩ := atomic.rename_ok hr'
        exact ih (by simp [hentries]) (hw.second ready hentries hold hs₁ hnew hs₂)
          (by simpa using h)

/-! ## The whole write -/

omit [DecidableEq Path] in
theorem Reserved.ready {base : Base Path Refusal} {s₀ s₁ s : Path → Option Bytes}
    {files : List (Text × Bytes)} {staged : List (Staged Path)} {backups : List Path}
    (hstaged : Siblings base s₀ files staged s₁) (hreserved : Reserved s₁ backups s)
    (hlen : backups.length = staged.length) : Ready s₀ (staged.zip backups) := by
  have hfst : (staged.zip backups).map (·.1) = staged := List.map_fst_zip (by omega)
  have hsnd : (staged.zip backups).map (·.2) = backups := List.map_snd_zip (by omega)
  have hone : ∀ e ∈ staged.zip backups, e.1 ∈ staged := fun e he => (List.of_mem_zip he).1
  have hbackup : ∀ e ∈ staged.zip backups, e.2 ∈ backups := fun e he => (List.of_mem_zip he).2
  have hsibling : ∀ b ∈ backups, b ∉ staged.map (·.staging) := by
    intro b hb hmem
    obtain ⟨one, hone, rfl⟩ := List.mem_map.mp hmem
    exact hstaged.staging_ne_none hone (hreserved.fresh _ hb)
  refine ⟨?_, ?_, ?_, ?_, ?_, ?_, ?_, ?_⟩
  · exact fun e he => hstaged.fresh _ (hone e he)
  · intro e he
    rw [← hstaged.others _ (hsibling _ (hbackup e he))]
    exact hreserved.fresh _ (hbackup e he)
  · have := hstaged.nodup
    rwa [← hfst, List.map_map] at this
  · rw [hsnd]
    exact hreserved.nodup
  · intro x hx y hy h
    exact hsibling _ (hbackup y hy) (h ▸ List.mem_map_of_mem (hone x hx))
  · intro x hx y hy h
    exact hstaged.present _ (hone x hx) (h ▸ hreserved.fresh _ (hbackup y hy))
  · exact fun e he => hstaged.own _ (hone e he)
  · have := hstaged.apart
    rwa [← hfst, List.pairwise_map] at this

theorem Reserved.moving {base : Base Path Refusal} {s₀ s₁ s : Path → Option Bytes}
    {files : List (Text × Bytes)} {staged : List (Staged Path)} {backups : List Path}
    (hstaged : Siblings base s₀ files staged s₁) (hreserved : Reserved s₁ backups s)
    (hlen : backups.length = staged.length) :
    Moving s₀ s₁ (staged.zip backups) [] (staged.zip backups) s := by
  have hsnd : (staged.zip backups).map (·.2) = backups := List.map_snd_zip (by omega)
  have hfst : (staged.zip backups).map (·.1) = staged := List.map_fst_zip (by omega)
  have hstagings : (staged.zip backups).map (·.1.staging) = staged.map (·.staging) := by
    conv_rhs => rw [← hfst, List.map_map]
    rfl
  have horiginal : ∀ p, s₀ p ≠ none → s p = s₀ p := by
    intro p hp
    have hsibling : p ∉ staged.map (·.staging) := by
      rintro hmem
      obtain ⟨one, hone, rfl⟩ := List.mem_map.mp hmem
      exact hp (hstaged.fresh one hone)
    have hbackup : p ∉ backups := fun hmem => hp (by
      rw [← hstaged.others p hsibling]
      exact hreserved.fresh p hmem)
    rw [hreserved.others p hbackup, hstaged.others p hsibling]
  refine ⟨⟨by simp, ?_, ?_⟩, ?_, fun e he => hreserved.taken _ (List.of_mem_zip he).2,
    fun _ _ _ hsplit => by simp at hsplit, ?_⟩
  · intro p hp
    rw [hsnd, hstagings]
    by_cases hbackup : p ∈ backups
    · exact .inr (.inr hbackup)
    · by_cases hsibling : p ∈ staged.map (·.staging)
      · exact .inr (.inl hsibling)
      · rw [hreserved.others p hbackup, hstaged.others p hsibling] at hp
        exact .inl hp
  · intro p c hp
    simpa [home, completedOf] using (horiginal p (by simp [hp])).trans hp
  · intro e he
    refine hreserved.others _ fun hmem => ?_
    exact hstaged.staging_ne_none (List.of_mem_zip he).1 (hreserved.fresh _ hmem)
  · intro p hp
    simpa [latest] using horiginal p hp

theorem lastBytes_eq [DecidableEq Refusal] {base : Base Path Refusal} {s : Path → Option Bytes}
    {files : List (Text × Bytes)} {staged : List (Staged Path)}
    (hresolved : files.map (fun file => base.containedPath file.1) =
      staged.map (fun one => .ok one.target))
    (hholds : files.map (fun file => some file.2) = staged.map (fun one => s one.staging)) (p : Path) :
    (lastBytes base files p).map some =
      (staged.filter (fun one => one.target = p)).getLast?.map (fun one => s one.staging) := by
  unfold lastBytes
  rw [← List.getLast?_map, ← List.getLast?_map, ← List.getLast?_map, List.map_map]
  congr 1
  induction files generalizing staged with
  | nil =>
    obtain rfl : staged = [] := by simpa using hresolved.symm
    rfl
  | cons file files ih =>
    cases staged with
    | nil => simp at hresolved
    | cons one staged =>
      simp only [List.map_cons, List.cons.injEq] at hresolved hholds
      have hnext := ih hresolved.2 hholds.2
      by_cases ht : one.target = p
      · simp [hresolved.1, ht, hnext, ← hholds.1]
      · simp [hresolved.1, ht, hnext]

/-- What a path holds once the first entries are in place is what the first files give it. -/
theorem Siblings.latest_take [DecidableEq Refusal] {base : Base Path Refusal}
    {s₀ s₁ : Path → Option Bytes} {files : List (Text × Bytes)} {staged : List (Staged Path)}
    {backups : List Path} (h : Siblings base s₀ files staged s₁)
    (hlen : backups.length = staged.length) (count : Nat) (p : Path) :
    latest s₀ s₁ ((staged.zip backups).take count) p =
      ((lastBytes base (files.take count) p).map some).getD (s₀ p) := by
  have hfst : ((staged.zip backups).take count).map (·.1) = staged.take count := by
    rw [List.map_take, List.map_fst_zip (by omega)]
  have hresolved := congrArg (List.take count) h.resolved
  have hholds := congrArg (List.take count) h.holds
  simp only [← List.map_take] at hresolved hholds
  rw [lastBytes_eq hresolved hholds]
  unfold latest
  conv_rhs => rw [← hfst, List.filter_map, List.getLast?_map, Option.map_map]
  rfl

/-- A backup that stays holds what its target held when the write came to its path. -/
theorem Moving.backupOf [DecidableEq Refusal] {base : Base Path Refusal}
    {contents : List (Text × Bytes)} {s₀ s₁ s s' : Path → Option Bytes}
    {staged : List (Staged Path)} {backups : List Path}
    (hstaged : Siblings base s₀ (fileMap contents) staged s₁)
    (hlen : backups.length = staged.length) (ready : Ready s₀ (staged.zip backups))
    (hw : Moving s₀ s₁ (staged.zip backups) (staged.zip backups) [] s) {backup : Path}
    (hbackup : backup ∈ backups) (hsame : s' backup = s backup) :
    ∃ path ∈ contents.map (·.1), BackupOf base contents s₀ s' path backup := by
  obtain ⟨i, hi, rfl⟩ := List.mem_iff_getElem.mp hbackup
  have hfiles : (fileMap contents).length = staged.length := by
    simpa using congrArg List.length hstaged.resolved
  have hentry : i < (staged.zip backups).length := by simp; omega
  have hfile : i < (fileMap contents).length := by omega
  have htarget : base.containedPath (fileMap contents)[i].1 = .ok staged[i].target := by
    have hat := congrArg (·[i]?) hstaged.resolved
    simpa [List.getElem?_eq_getElem hfile, List.getElem?_eq_getElem (hfiles ▸ hfile)] using hat
  have hentries := (List.take_append_drop i (staged.zip backups)).symm
  rw [List.drop_eq_getElem_cons hentry] at hentries
  have hfront := List.take_append_drop i (fileMap contents)
  rw [List.drop_eq_getElem_cons hfile] at hfront
  have hheld := hw.held _ _ _ hentries
  rw [hstaged.latest_take hlen, List.getElem_zip] at hheld
  have hmem : (staged[i], backups[i]) ∈ staged.zip backups := by
    rw [← List.getElem_zip (h := hentry)]
    exact List.getElem_mem hentry
  have hbefore := Front.before hfront.symm
  refine ⟨_, mem_fileMap.mp (List.mem_map_of_mem (List.getElem_mem hfile)), staged[i].target, htarget,
    ready.backup_fresh _ hmem, hsame ▸ hw.backed _ hmem, fun bytes hbytes => ?_, fun hnames => ?_⟩
  · rw [hsame, hheld, hbefore.lastBytes_eq_some hbytes]
    rfl
  · rw [hsame, hheld, hbefore.lastBytes_eq_none hnames]
    rfl

include atomic in
theorem discard_promise [DecidableEq Refusal] {base : Base Path Refusal}
    {contents : List (Text × Bytes)} {s₀ s₁ s₂ : Path → Option Bytes}
    {staged : List (Staged Path)} {backups : List Path} {w w' : W}
    {leftovers : List (Leftover Path)} (hstaged : Siblings base s₀ (fileMap contents) staged s₁)
    (hreserved : Reserved s₁ backups s₂) (hlen : backups.length = staged.length)
    (hw : Moving s₀ s₁ (staged.zip backups) (staged.zip backups) [] (store w))
    (h : discard steps backups w = (leftovers, w')) :
    Promise base contents s₀ (store w') (.ok leftovers) := by
  have ready := hreserved.ready hstaged hlen
  have hfst : (staged.zip backups).map (·.1) = staged := List.map_fst_zip (by omega)
  have hsnd : (staged.zip backups).map (·.2) = backups := List.map_snd_zip (by omega)
  obtain ⟨frame, gone, kept⟩ := discard_discarded atomic h
  have hheld : ∀ p, s₀ p ≠ none →
      store w' p = ((lastBytes base (fileMap contents) p).map some).getD (s₀ p) := by
    intro p hp
    have hbackup : p ∉ backups := by
      rw [← hsnd]
      rintro hmem
      obtain ⟨e, he, rfl⟩ := List.mem_map.mp hmem
      exact hp (ready.backup_fresh e he)
    have hlatest := hstaged.latest_take hlen (staged.zip backups).length p
    have hfiles : (fileMap contents).length = (staged.zip backups).length := by
      simpa [hlen] using congrArg List.length hstaged.resolved
    rw [List.take_length, ← hfiles, List.take_length] at hlatest
    rw [frame p hbackup, hw.current p hp, hlatest]
  refine ⟨?_, ?_, ?_, ?_⟩
  · intro target bytes hgives
    -- A target that got bytes was moved, so it held an original.
    have hbytes := Front.whole.lastBytes_eq_some hgives
    have horigin : s₀ target ≠ none := by
      have hsome := lastBytes_eq hstaged.resolved hstaged.holds target
      rw [hbytes, Option.map_some] at hsome
      obtain ⟨one, hlast, -⟩ := Option.map_eq_some_iff.mp hsome.symm
      obtain ⟨hone, htarget⟩ := List.mem_filter.mp (List.mem_of_getLast? hlast)
      rw [← hfst] at hone
      obtain ⟨e, he, rfl⟩ := List.mem_map.mp hone
      simpa [show e.1.target = target by simpa using htarget] using hw.origins e he
    rw [hheld target horigin, hbytes]
    rfl
  · intro p hnames hp
    rw [hheld p hp, Front.whole.lastBytes_eq_none hnames]
    rfl
  · intro p hp hstays
    by_cases hmem : p ∈ backups
    · exact (gone p hmem).resolve_left hstays
    · rw [frame p hmem] at hstays
      rcases hw.domain p hstays with h | h | h
      · exact absurd hp h
      · simp at h
      · exact absurd (hsnd ▸ h) hmem
  · intro leftover hleftover
    obtain ⟨hbackup, hsame⟩ := kept hreserved.nodup _ (List.mem_map_of_mem hleftover)
    exact hw.backupOf hstaged hlen ready hbackup hsame

omit [DecidableEq Path] in
theorem Kept.promise {base : Base Path Refusal}
    {contents : List (Text × Bytes)} {s s' : Path → Option Bytes}
    {failure : WriteFailure Path Refusal} (h : Kept s s' failure) :
    Promise base contents s s' (.error failure) := by
  obtain ⟨error, leftovers⟩ := failure
  obtain ⟨hunchanged, hne⟩ := h
  cases error with
  | partlyApplied name reason retained => exact absurd rfl (hne name reason retained)
  | _ => exact hunchanged

include atomic in
/-- A write through atomic steps keeps its promise, whichever of its calls failed. -/
theorem writeWith_promise [DecidableEq Refusal] {base : Base Path Refusal}
    {contents : List (Text × Bytes)} {w w' : W}
    {r : Except (WriteFailure Path Refusal) (List (Leftover Path))}
    (h : writeWith steps base contents w = (r, w')) :
    Promise base contents (store w) (store w') r := by
  unfold writeWith at h
  rcases hst : stageAll steps base (fileMap contents) w with ⟨r₁, w₁⟩
  rcases stageFrom_outcome atomic (Siblings.nil base (store w)) hst with
    ⟨staged, rfl, hstaged⟩ | ⟨failure, rfl, hfail⟩
  swap
  · simp only [hst, Prod.mk.injEq] at h
    obtain ⟨rfl, rfl⟩ := h
    exact hfail.promise
  simp only [List.nil_append] at hstaged
  rcases hrs : (reserveAll steps staged w₁ : Except (WriteFailure Path Refusal) _ × W)
    with ⟨r₂, w₂⟩
  have hnone : Reserved (store w₁) [] (store w₁) := by constructor <;> simp
  rcases reserveFrom_outcome atomic hstaged hnone hrs with
    ⟨backups, rfl, hlen, hreserved⟩ | ⟨failure, rfl, hfail⟩
  swap
  · simp only [hst, hrs, Prod.mk.injEq] at h
    obtain ⟨rfl, rfl⟩ := h
    exact hfail.promise
  replace hlen : backups.length = staged.length := by simpa using hlen
  rcases hrp : replaceAll steps base staged backups w₂ with ⟨r₃, w₃⟩
  have hfst : (staged.zip backups).map (·.1) = staged := List.map_fst_zip (by omega)
  have hsnd : (staged.zip backups).map (·.2) = backups := List.map_snd_zip (by omega)
  have hmoves : replaceFrom steps base ((staged.zip backups).map (·.1))
      ((staged.zip backups).map (·.2)) (staged.zip backups) 0 [] w₂ = (r₃, w₃) := by
    rw [hfst, hsnd]
    exact hrp
  rcases replaceFrom_outcome atomic (hreserved.ready hstaged hlen) (List.nil_append _).symm
    (hreserved.moving hstaged hlen) hmoves with ⟨rfl, hmoving⟩ | ⟨failure, rfl, hfail⟩
  swap
  · simp only [hst, hrs, hrp, Prod.mk.injEq] at h
    obtain ⟨rfl, rfl⟩ := h
    exact hfail
  rcases hd : discard steps backups w₃ with ⟨leftovers, w₄⟩
  simp only [hst, hrs, hrp, hd, Prod.mk.injEq] at h
  obtain ⟨rfl, rfl⟩ := h
  exact discard_promise atomic hstaged hreserved hlen hmoving hd

end Steps

/-- The repository write is atomic over every store, whichever calls the operating system
refuses and whichever sibling names it draws: a success leaves every target with the last bytes
given to it, a failure that says so leaves every file as it was, and a partial one leaves every
original at its path or at a retained backup. -/
theorem writeWith_atomic [DecidableEq Refusal] (base : Base Path Refusal)
    (contents : List (Text × Bytes)) (w : World Path) :
    Promise base contents w.store (writeWith disk base contents w).2.store
      (writeWith disk base contents w).1 :=
  writeWith_promise disk_atomic rfl

/-- A base in which every path names the file `0`. -/
def oneFile : Base Nat Unit where
  containedPath _ := .ok 0
  fileName _ := none

/-- A store that holds the file `0`, on a disk that refuses no call. -/
def oneFileWorld : World Nat where
  store p := if p = 0 then some [1] else none
  calls := 0
  refuses _ := none
  sibling n := n + 1

/-- Two paths may name one target. The write then succeeds and the target does not hold the
bytes of the first of them. -/
theorem writeWith_alias_loses_first :
    let (r, w) := writeWith disk oneFile [("a".toList, [2]), ("b".toList, [3])] oneFileWorld
    r = .ok [] ∧ oneFile.containedPath "a".toList = .ok 0 ∧ w.store 0 ≠ some [2] := by
  decide

end Agentless.Io.Txn
