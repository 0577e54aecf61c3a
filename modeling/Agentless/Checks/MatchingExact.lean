import Agentless.Checks.Matching
import Agentless.Library.Matching

/-!
# The matching is a partial matching

Each pass is a matching of the units that the pass before left over. A pass by body leaves units of a
body on one side at most, which counts its pairs.
-/

namespace Agentless.Checks

open Groups

/-- No two units have one identity. -/
def Distinct (units : List UnitRef) : Prop := (units.map UnitRef.id).Nodup

namespace Distinct

variable {units : List UnitRef}

theorem nodup (h : Distinct units) : units.Nodup := List.Nodup.of_map _ h

theorem eq_of_id (h : Distinct units) {x y : UnitRef} (hx : x ∈ units) (hy : y ∈ units)
    (hid : x.id = y.id) : x = y :=
  List.inj_on_of_nodup_map h hx hy hid

theorem filter (h : Distinct units) (p : UnitRef → Bool) : Distinct (units.filter p) :=
  List.Nodup.sublist ((List.filter_sublist).map UnitRef.id) h

theorem picks {picked : List UnitRef} (h : Distinct units) (hpicked : Picks picked units) :
    Distinct picked :=
  List.Nodup.map_on (fun _ hx _ hy => h.eq_of_id (hpicked.subset hx) (hpicked.subset hy))
    hpicked.nodup

/-- Leaving out identities leaves out the units that have them. -/
theorem without_eq (h : Distinct units) {gone : List UnitRef} (hgone : gone ⊆ units) :
    without units (gone.map UnitRef.id) = Picks.others gone units := by
  refine List.filter_congr fun unit hunit => ?_
  have hmem : unit.id ∈ gone.map UnitRef.id ↔ unit ∈ gone := by
    constructor
    · intro hid
      obtain ⟨other, hother, heq⟩ := List.mem_map.mp hid
      rwa [← h.eq_of_id (hgone hother) hunit heq]
    · exact List.mem_map_of_mem
  rw [Bool.eq_iff_iff, Bool.not_eq_true', decide_eq_true_iff, ← Bool.not_eq_true,
    List.contains_iff_mem, hmem]

end Distinct

/-! ## One body -/

/-- The pairs of new and old units of one body with one name. -/
def namedPairs (olds news : List UnitRef) : List (UnitRef × UnitRef) :=
  (keysOf (·.unit.qualname) news).flatMap fun name =>
    (news.filter fun unit => unit.unit.qualname = name).zip
      (olds.filter fun unit => unit.unit.qualname = name)

/-- The pairs of new and old units of one body. -/
def bodyPairs (olds news : List UnitRef) : List (UnitRef × UnitRef) :=
  let named := namedPairs olds news
  named ++ (Picks.others (named.map Prod.fst) news).zip (Picks.others (named.map Prod.snd) olds)

section Body

variable {olds news : List UnitRef}

theorem matching_namedPairs (hold : Distinct olds) (hnew : Distinct news) :
    Matching (namedPairs olds news) news olds :=
  Matching.flatMap (nodup_keysOf _ _) fun _ _ =>
    Matching.zip (hnew.nodup.filter _) (hold.nodup.filter _)

theorem matching_bodyPairs (hold : Distinct olds) (hnew : Distinct news) :
    Matching (bodyPairs olds news) news olds :=
  (matching_namedPairs hold hnew).append
    (Matching.zip (hnew.nodup.filter _) (hold.nodup.filter _))

theorem maximal_bodyPairs (olds news : List UnitRef) :
    Matching.Maximal (bodyPairs olds news) news olds :=
  (Matching.maximal_zip _ _).append

theorem bodyGroup_eq (hold : Distinct olds) (hnew : Distinct news) :
    bodyGroup olds news = (bodyPairs olds news).map fun pair => (pair.1.id, pair.2) := by
  have hmatching := matching_namedPairs hold hnew
  have hnamed : ((grouped (·.unit.qualname) news).flatMap fun named =>
      (named.2.zip (lookup (grouped (·.unit.qualname) olds) named.1)).map fun pair =>
        (pair.1.id, pair.2)) = (namedPairs olds news).map fun pair => (pair.1.id, pair.2) := by
    rw [grouped_eq _ news, namedPairs, List.map_flatMap, List.flatMap_map]
    simp only [lookup_grouped]
  unfold bodyGroup bodyPairs
  dsimp only
  rw [hnamed, List.map_map, List.map_map, List.map_append]
  congr 2
  have hsnd := hold.without_eq hmatching.right.subset
  have hfst := hnew.without_eq hmatching.left.subset
  rw [List.map_map] at hsnd hfst
  rw [← hsnd, ← hfst]
  rfl

theorem namedPairs_self (news : List UnitRef) :
    (∀ pair ∈ namedPairs news news, pair.1 = pair.2) ∧
      ((namedPairs news news).map Prod.fst).Perm news := by
  have hzip (units : List UnitRef) : units.zip units = units.map fun unit => (unit, unit) := by
    rw [List.zip_eq_zipWith, List.zipWith_self]
  unfold namedPairs
  constructor
  · intro pair hpair
    obtain ⟨name, -, hpair⟩ := List.mem_flatMap.mp hpair
    rw [hzip] at hpair
    obtain ⟨unit, -, rfl⟩ := List.mem_map.mp hpair
    rfl
  · have hmap (units : List UnitRef) : (units.map fun unit => (unit, unit)).map Prod.fst = units := by
      rw [List.map_map]
      exact List.map_id units
    simp only [List.map_flatMap, hzip, hmap]
    exact flatMap_filter_perm _ (nodup_keysOf _ _) fun unit hunit => mem_keysOf.mpr ⟨unit, hunit, rfl⟩

theorem bodyPairs_self (news : List UnitRef) :
    (∀ pair ∈ bodyPairs news news, pair.1 = pair.2) ∧
      ((bodyPairs news news).map Prod.fst).Perm news := by
  obtain ⟨hsame, hperm⟩ := namedPairs_self news
  have hnone : Picks.others ((namedPairs news news).map Prod.fst) news = [] := by
    refine List.filter_eq_nil_iff.mpr fun unit hunit hnot => ?_
    exact of_decide_eq_true hnot (hperm.mem_iff.mpr hunit)
  unfold bodyPairs
  simp only [hnone, List.zip_nil_left, List.append_nil]
  exact ⟨hsame, hperm⟩

end Body

/-! ## A pass by body -/

/-- The pairs of new and old units with one body. -/
def passPairs (olds news : List UnitRef) : List (UnitRef × UnitRef) :=
  (keysOf (·.unit.bodyKey) news).flatMap fun key =>
    bodyPairs (olds.filter fun unit => unit.unit.bodyKey = key)
      (news.filter fun unit => unit.unit.bodyKey = key)

/-- What a pass by body gives: it pairs equal bodies only, and leaves no body on both sides. -/
structure Passed (olds news : List UnitRef) (pass : Pass) : Prop where
  new_perm : (pass.paired.map Paired.new ++ pass.newLeft).Perm news
  old_perm : (pass.paired.filterMap Paired.old ++ pass.oldLeft).Perm olds
  body : ∀ paired ∈ pass.paired, paired.via = .body ∧
    ∃ old, paired.old = some old ∧ old.unit.bodyKey = paired.new.unit.bodyKey
  used : ∀ key, (∀ new ∈ pass.newLeft, new.unit.bodyKey ≠ key) ∨
    ∀ old ∈ pass.oldLeft, old.unit.bodyKey ≠ key

section Pass

variable {olds news : List UnitRef}

theorem matching_passPairs (hold : Distinct olds) (hnew : Distinct news) :
    Matching (passPairs olds news) news olds :=
  Matching.flatMap (nodup_keysOf _ _) fun _ _ =>
    matching_bodyPairs (hold.filter _) (hnew.filter _)

theorem bodyKey_passPairs (hold : Distinct olds) (hnew : Distinct news) {pair : UnitRef × UnitRef}
    (hpair : pair ∈ passPairs olds news) : pair.1.unit.bodyKey = pair.2.unit.bodyKey := by
  have hwithin (key : Bytes) (_ : key ∈ keysOf (·.unit.bodyKey) news) :=
    matching_bodyPairs (hold.filter fun unit => unit.unit.bodyKey = key)
      (hnew.filter fun unit => unit.unit.bodyKey = key)
  exact Matching.key_of_mem_flatMap hwithin hpair

theorem filled_passPairs (hold : Distinct olds) (hnew : Distinct news) {new old : UnitRef} :
    filled (passPairs olds news) new = some old ↔ (new, old) ∈ passPairs olds news :=
  filled_eq_some_iff (matching_passPairs hold hnew).left.nodup

theorem bodyPass_eq (hold : Distinct olds) (hnew : Distinct news) :
    bodyPass olds news =
      { paired := news.filterMap fun new =>
          (filled (passPairs olds news) new).map fun old => { old := some old, new, via := .body }
        newLeft := news.filter fun new => (filled (passPairs olds news) new).isNone
        oldLeft := Picks.others ((passPairs olds news).map Prod.snd) olds } := by
  have hmatching := matching_passPairs hold hnew
  have hpartner : ((grouped (·.unit.bodyKey) news).flatMap fun named =>
      bodyGroup (lookup (grouped (·.unit.bodyKey) olds) named.1) named.2) =
      (passPairs olds news).map fun pair => (pair.1.id, pair.2) := by
    rw [grouped_eq _ news, passPairs, List.map_flatMap, List.flatMap_map]
    refine List.flatMap_congr fun key _ => ?_
    rw [lookup_grouped, bodyGroup_eq (hold.filter _) (hnew.filter _)]
  have hkeys : (((passPairs olds news).map fun pair => (pair.1.id, pair.2)).map Prod.fst).Nodup := by
    have hdistinct := hnew.picks hmatching.left
    rw [Distinct, List.map_map] at hdistinct
    rwa [List.map_map]
  have hfilled (new : UnitRef) (hmem : new ∈ news) :
      filled ((passPairs olds news).map fun pair => (pair.1.id, pair.2)) new.id =
        filled (passPairs olds news) new := by
    refine Option.ext fun old => ?_
    rw [filled_eq_some_iff hkeys, filled_passPairs hold hnew, List.mem_map]
    constructor
    · rintro ⟨pair, hpair, heq⟩
      obtain ⟨hid, rfl⟩ := Prod.mk.inj heq
      rwa [← hnew.eq_of_id (hmatching.left.subset (List.mem_map_of_mem hpair)) hmem hid]
    · intro hpair
      exact ⟨(new, old), hpair, rfl⟩
  have hsnd := hold.without_eq hmatching.right.subset
  rw [List.map_map] at hsnd
  unfold bodyPass
  dsimp only
  rw [hpartner, List.map_map, ← hsnd]
  congr 1
  · exact List.filterMap_congr fun new hmem => by rw [hfilled new hmem]
  · exact List.filter_congr fun new hmem => by rw [hfilled new hmem]

/-- The partners of all new units are the old units of the pairs. -/
theorem filterMap_filled_perm (hold : Distinct olds) (hnew : Distinct news) :
    (news.filterMap (filled (passPairs olds news))).Perm ((passPairs olds news).map Prod.snd) := by
  have hmatching := matching_passPairs hold hnew
  have hpicked : ((passPairs olds news).map Prod.fst).filterMap (filled (passPairs olds news)) =
      (passPairs olds news).map Prod.snd := by
    rw [List.filterMap_map, ← List.filterMap_eq_map]
    exact List.filterMap_congr fun pair hpair => (filled_passPairs hold hnew).mpr hpair
  have hothers : (Picks.others ((passPairs olds news).map Prod.fst) news).filterMap
      (filled (passPairs olds news)) = [] := by
    refine List.filterMap_eq_nil_iff.mpr fun new hnew' => Option.eq_none_iff_forall_ne_some.mpr ?_
    intro old hsome
    have hpair := (filled_passPairs hold hnew).mp hsome
    exact of_decide_eq_true (List.mem_filter.mp hnew').2 (List.mem_map_of_mem hpair)
  have hperm := (hmatching.left.append_others_perm hnew.nodup).filterMap
    (filled (passPairs olds news))
  rw [List.filterMap_append, hpicked, hothers, List.append_nil] at hperm
  exact hperm.symm

/-- A body that is left among the old units is used up among the new ones. -/
theorem maximal_passPairs (olds news : List UnitRef) (key : Bytes) :
    (∀ new ∈ news, new.unit.bodyKey = key → new ∈ (passPairs olds news).map Prod.fst) ∨
      ∀ old ∈ olds, old.unit.bodyKey = key → old ∈ (passPairs olds news).map Prod.snd := by
  by_cases hkey : key ∈ keysOf (·.unit.bodyKey) news
  · have hsubset : bodyPairs (olds.filter fun unit => unit.unit.bodyKey = key)
        (news.filter fun unit => unit.unit.bodyKey = key) ⊆ passPairs olds news :=
      fun pair hpair => List.mem_flatMap.mpr ⟨key, hkey, hpair⟩
    refine (maximal_bodyPairs (olds.filter fun unit => unit.unit.bodyKey = key)
      (news.filter fun unit => unit.unit.bodyKey = key)).imp ?_ ?_
    · intro hall new hmem heq
      exact List.map_subset _ hsubset (hall (List.mem_filter.mpr ⟨hmem, decide_eq_true heq⟩))
    · intro hall old hmem heq
      exact List.map_subset _ hsubset (hall (List.mem_filter.mpr ⟨hmem, decide_eq_true heq⟩))
  · exact .inl fun new hmem heq => absurd (mem_keysOf.mpr ⟨new, hmem, heq⟩) hkey

theorem passed_bodyPass (hold : Distinct olds) (hnew : Distinct news) :
    Passed olds news (bodyPass olds news) := by
  have hmatching := matching_passPairs hold hnew
  rw [bodyPass_eq hold hnew]
  refine ⟨?_, ?_, ?_, ?_⟩
  · dsimp only
    have hfilter : (news.filterMap fun new => (filled (passPairs olds news) new).map fun old =>
        (⟨some old, new, .body⟩ : Paired)).map Paired.new =
        news.filter fun new => !(filled (passPairs olds news) new).isNone := by
      rw [List.map_filterMap, ← List.filterMap_eq_filter]
      refine List.filterMap_congr fun new _ => ?_
      cases h : filled (passPairs olds news) new <;> simp [Option.guard, h]
    rw [hfilter]
    exact List.perm_append_comm.trans (List.filter_append_perm _ news)
  · dsimp only
    rw [List.filterMap_filterMap]
    have hsame (new : UnitRef) : ((filled (passPairs olds news) new).map fun old =>
        (⟨some old, new, .body⟩ : Paired)).bind Paired.old = filled (passPairs olds news) new := by
      cases filled (passPairs olds news) new <;> rfl
    simp only [hsame]
    exact ((filterMap_filled_perm hold hnew).append_right _).trans
      (hmatching.right.append_others_perm hold.nodup)
  · intro paired hpaired
    obtain ⟨new, -, hsome⟩ := List.mem_filterMap.mp hpaired
    obtain ⟨old, hfilled, rfl⟩ := Option.map_eq_some_iff.mp hsome
    have hpair := (filled_passPairs hold hnew).mp hfilled
    exact ⟨rfl, old, rfl, (bodyKey_passPairs hold hnew hpair).symm⟩
  · intro key
    refine (maximal_passPairs olds news key).imp (fun hall new hmem heq => ?_) fun hall old hmem heq => ?_
    · obtain ⟨hnews, hnone⟩ := List.mem_filter.mp hmem
      obtain ⟨pair, hpair, rfl⟩ := List.mem_map.mp (hall new hnews heq)
      rw [(filled_passPairs hold hnew).mpr hpair] at hnone
      cases hnone
    · obtain ⟨holds, hnot⟩ := List.mem_filter.mp hmem
      exact of_decide_eq_true hnot (hall old holds heq)

theorem bodyPass_self (h : Distinct news) :
    bodyPass news news =
      { paired := news.map fun unit => { old := some unit, new := unit, via := .body }
        newLeft := []
        oldLeft := [] } := by
  have hself (unit : UnitRef) (hmem : unit ∈ news) : (unit, unit) ∈ passPairs news news := by
    have hkey : unit.unit.bodyKey ∈ keysOf (·.unit.bodyKey) news := mem_keysOf.mpr ⟨unit, hmem, rfl⟩
    obtain ⟨hsame, hperm⟩ := bodyPairs_self
      (news.filter fun other => other.unit.bodyKey = unit.unit.bodyKey)
    have hfst := hperm.mem_iff.mpr (List.mem_filter.mpr ⟨hmem, decide_eq_true rfl⟩)
    obtain ⟨pair, hpair, heq⟩ := List.mem_map.mp hfst
    obtain rfl : pair = (unit, unit) := Prod.ext heq ((hsame pair hpair).symm.trans heq)
    exact List.mem_flatMap.mpr ⟨_, hkey, hpair⟩
  have hfilled (unit : UnitRef) (hmem : unit ∈ news) :
      filled (passPairs news news) unit = some unit :=
    (filled_passPairs h h).mpr (hself unit hmem)
  rw [bodyPass_eq h h]
  congr 1
  · rw [← List.filterMap_eq_map]
    exact List.filterMap_congr fun unit hmem => by simp [hfilled unit hmem]
  · refine List.filter_eq_nil_iff.mpr fun unit hmem hnot => ?_
    exact of_decide_eq_true hnot (List.mem_map_of_mem (hself unit hmem))
  · exact List.filter_eq_nil_iff.mpr fun unit hmem => by simp [hfilled unit hmem]

end Pass

/-! ## Names and ranks -/

/-- What the passes by name give: every new unit once, paired with an old unit of its name or left,
and every old unit at most once. -/
structure Named (olds news : List UnitRef) (named : List Paired × List UnitRef) : Prop where
  new_perm : (named.1.map Paired.new ++ named.2).Perm news
  old_picks : Picks (named.1.filterMap Paired.old) olds
  name : ∀ paired ∈ named.1, (paired.via = .name ∨ paired.via = .collision) ∧
    ∃ old, paired.old = some old ∧ old.unit.qualname = paired.new.unit.qualname

section Names

variable {olds news : List UnitRef}

theorem named_nameGroup (name : Text) (hold : olds.Nodup)
    (holds : ∀ old ∈ olds, old.unit.qualname = name)
    (hnews : ∀ new ∈ news, new.unit.qualname = name) :
    Named olds news (nameGroup olds news) := by
  unfold nameGroup
  split
  next old new =>
    refine ⟨.refl _, ⟨List.nodup_singleton old, List.Subset.refl _⟩, ?_⟩
    intro paired hpaired
    obtain rfl := List.mem_singleton.mp hpaired
    exact ⟨.inl rfl, old, rfl,
      (holds old List.mem_cons_self).trans (hnews new List.mem_cons_self).symm⟩
  next =>
    have hperm : (ranked olds).Perm olds := List.perm_insertionSort _ _
    have hnewperm : (ranked news).Perm news := List.perm_insertionSort _ _
    refine ⟨?_, ?_, ?_⟩
    · rw [List.map_map]
      change (((ranked olds).zip (ranked news)).map Prod.snd ++ _).Perm news
      rw [Matching.map_snd_zip, List.take_append_drop]
      exact hnewperm
    · rw [List.filterMap_map]
      change Picks (((ranked olds).zip (ranked news)).filterMap fun pair => some pair.1) olds
      rw [List.filterMap_eq_map', Matching.map_fst_zip]
      exact (Picks.take (hperm.nodup_iff.mpr hold) _).of_perm hperm
    · intro paired hpaired
      obtain ⟨pair, hpair, rfl⟩ := List.mem_map.mp hpaired
      obtain ⟨hfst, hsnd⟩ := List.of_mem_zip hpair
      exact ⟨.inr rfl, pair.1, rfl, (holds _ (hperm.mem_iff.mp hfst)).trans
        (hnews _ (hnewperm.mem_iff.mp hsnd)).symm⟩

theorem nameAndCollisionPasses_eq (oldLeft newLeft : List UnitRef) :
    nameAndCollisionPasses oldLeft newLeft =
      let within := fun name =>
        nameGroup (oldLeft.filter fun unit => unit.unit.qualname = name)
          (newLeft.filter fun unit => unit.unit.qualname = name)
      ((keysOf (·.unit.qualname) newLeft).flatMap fun name => (within name).1,
        (keysOf (·.unit.qualname) newLeft).flatMap fun name => (within name).2) := by
  unfold nameAndCollisionPasses
  rw [grouped_eq _ newLeft]
  simp only [lookup_grouped, List.map_map, List.flatMap_map, Function.comp_apply]

theorem named_passes (hold : olds.Nodup) : Named olds news (nameAndCollisionPasses olds news) := by
  have hgroup (name : Text) := @named_nameGroup
    (olds.filter fun unit => unit.unit.qualname = name)
    (news.filter fun unit => unit.unit.qualname = name) name (hold.filter _)
    (fun old hmem => of_decide_eq_true (List.mem_filter.mp hmem).2)
    (fun new hmem => of_decide_eq_true (List.mem_filter.mp hmem).2)
  rw [nameAndCollisionPasses_eq]
  refine ⟨?_, ?_, ?_⟩
  · rw [List.map_flatMap]
    refine (List.flatMap_append_perm _ _ _).trans ?_
    refine (List.Perm.flatMap_left _ fun name _ => (hgroup name).new_perm).trans ?_
    exact flatMap_filter_perm _ (nodup_keysOf _ _) fun new hmem => mem_keysOf.mpr ⟨new, hmem, rfl⟩
  · rw [List.filterMap_flatMap]
    exact Picks.flatMap (nodup_keysOf _ _) fun name _ => (hgroup name).old_picks
  · intro paired hpaired
    obtain ⟨name, -, hmem⟩ := List.mem_flatMap.mp hpaired
    exact (hgroup name).name paired hmem

end Names

/-! ## The run -/

/-- The units of all files have their own identities, and each is in the file it names. -/
structure Indexed (files : List FileUnits) : Prop where
  old : Distinct (files.flatMap FileUnits.old)
  new : Distinct (files.flatMap FileUnits.new)
  file_new : ∀ new ∈ files.flatMap FileUnits.new, new.file < files.length

section Run

variable {files : List FileUnits}

theorem Distinct.of_mem_flatMap {α : Type} {items : List α} {f : α → List UnitRef} {item : α}
    (h : Distinct (items.flatMap f)) (hmem : item ∈ items) : Distinct (f item) := by
  rw [Distinct, List.map_flatMap] at h
  exact (List.nodup_flatMap.mp h).1 item hmem

theorem Distinct.of_perm_append {picked left units : List UnitRef} (h : Distinct units)
    (hperm : (picked ++ left).Perm units) : Distinct left := by
  have hall := (hperm.map UnitRef.id).nodup_iff.mpr h
  rw [List.map_append] at hall
  exact List.Nodup.of_append_right hall

/-- The passes by body of the files together. -/
def filePass (files : List FileUnits) : Pass where
  paired := (files.map fun file => bodyPass file.old file.new).flatMap Pass.paired
  oldLeft := (files.map fun file => bodyPass file.old file.new).flatMap Pass.oldLeft
  newLeft := (files.map fun file => bodyPass file.old file.new).flatMap Pass.newLeft

/-- The pass by body across the files. -/
def movedPass (files : List FileUnits) : Pass :=
  bodyPass (filePass files).oldLeft (filePass files).newLeft

/-- The pairs by name of one file, and its new units that are left. -/
def namedPass (files : List FileUnits) (file : Nat) : List Paired × List UnitRef :=
  nameAndCollisionPasses ((movedPass files).oldLeft.filter fun unit => unit.file = file)
    ((movedPass files).newLeft.filter fun unit => unit.file = file)

def unpaired (new : UnitRef) : Paired := { old := none, new, via := .new }

theorem matchRun_eq (files : List FileUnits) :
    matchRun files = (filePass files).paired ++ (movedPass files).paired ++
      (List.range files.length).flatMap fun file =>
        (namedPass files file).1 ++ (namedPass files file).2.map unpaired := by
  unfold matchRun
  simp only [lookup_grouped]
  rfl

theorem passed_files (h : Indexed files) :
    ((filePass files).paired.map Paired.new ++ (filePass files).newLeft).Perm
        (files.flatMap FileUnits.new) ∧
      ((filePass files).paired.filterMap Paired.old ++ (filePass files).oldLeft).Perm
        (files.flatMap FileUnits.old) ∧
      ∀ paired ∈ (filePass files).paired, paired.via = .body ∧
        ∃ old, paired.old = some old ∧ old.unit.bodyKey = paired.new.unit.bodyKey := by
  have hpass (file : FileUnits) (hfile : file ∈ files) :=
    passed_bodyPass (h.old.of_mem_flatMap hfile) (h.new.of_mem_flatMap hfile)
  unfold filePass
  simp only [List.flatMap_map]
  refine ⟨?_, ?_, ?_⟩
  · rw [List.map_flatMap]
    refine (List.flatMap_append_perm _ _ _).trans ?_
    exact List.Perm.flatMap_left _ fun file hfile => (hpass file hfile).new_perm
  · rw [List.filterMap_flatMap]
    refine (List.flatMap_append_perm _ _ _).trans ?_
    exact List.Perm.flatMap_left _ fun file hfile => (hpass file hfile).old_perm
  · intro paired hpaired
    obtain ⟨file, hfile, hmem⟩ := List.mem_flatMap.mp hpaired
    exact (hpass file hfile).body paired hmem

theorem passed_moved (h : Indexed files) :
    Passed (filePass files).oldLeft (filePass files).newLeft (movedPass files) := by
  obtain ⟨hnew, hold, -⟩ := passed_files h
  exact passed_bodyPass (h.old.of_perm_append hold) (h.new.of_perm_append hnew)

/-- The pairs by body of the whole run. -/
def bodyPaired (files : List FileUnits) : List Paired :=
  (filePass files).paired ++ (movedPass files).paired

theorem passed_bodies (h : Indexed files) :
    Passed (files.flatMap FileUnits.old) (files.flatMap FileUnits.new)
      { paired := bodyPaired files
        oldLeft := (movedPass files).oldLeft
        newLeft := (movedPass files).newLeft } := by
  obtain ⟨hnew, hold, hbody⟩ := passed_files h
  have hmoved := passed_moved h
  refine ⟨?_, ?_, ?_, hmoved.used⟩
  · rw [bodyPaired, List.map_append, List.append_assoc]
    exact (hmoved.new_perm.append_left _).trans hnew
  · rw [bodyPaired, List.filterMap_append, List.append_assoc]
    exact (hmoved.old_perm.append_left _).trans hold
  · intro paired hpaired
    rcases List.mem_append.mp hpaired with hpaired | hpaired
    · exact hbody paired hpaired
    · exact hmoved.body paired hpaired

/-- How the two units of a pair relate. -/
def Paired.Respects (paired : Paired) : Prop :=
  match paired.via with
  | .body => ∃ old, paired.old = some old ∧ old.unit.bodyKey = paired.new.unit.bodyKey
  | .name | .collision => ∃ old, paired.old = some old ∧ old.file = paired.new.file ∧
      old.unit.qualname = paired.new.unit.qualname
  | .new => paired.old = none

/-- The pairs by name of the whole run, and its new units without an old one. -/
def namedPaired (files : List FileUnits) : List Paired :=
  (List.range files.length).flatMap fun file =>
    (namedPass files file).1 ++ (namedPass files file).2.map unpaired

theorem named_rest (h : Indexed files) :
    ((namedPaired files).map Paired.new).Perm (movedPass files).newLeft ∧
      Picks ((namedPaired files).filterMap Paired.old) (movedPass files).oldLeft ∧
      ∀ paired ∈ namedPaired files, paired.via ≠ .body ∧ paired.Respects := by
  have hpassed := passed_bodies h
  have hnodup : (movedPass files).oldLeft.Nodup :=
    (h.old.of_perm_append hpassed.old_perm).nodup
  have hnamed (file : Nat) : Named _ _ (namedPass files file) :=
    named_passes (hnodup.filter fun unit => unit.file = file)
  have hunpaired (news : List UnitRef) : (news.map unpaired).map Paired.new = news := by
    rw [List.map_map]
    exact List.map_id news
  refine ⟨?_, ?_, ?_⟩
  · unfold namedPaired
    simp only [List.map_flatMap, List.map_append, hunpaired]
    refine (List.Perm.flatMap_left _ fun file _ => (hnamed file).new_perm).trans ?_
    refine flatMap_filter_perm _ List.nodup_range fun new hnew => List.mem_range.mpr ?_
    exact h.file_new new (hpassed.new_perm.mem_iff.mp (List.mem_append_right _ hnew))
  · have hnone (news : List UnitRef) : (news.map unpaired).filterMap Paired.old = [] := by
      rw [List.filterMap_map]
      exact List.filterMap_eq_nil_iff.mpr fun _ _ => rfl
    unfold namedPaired
    simp only [List.filterMap_flatMap, List.filterMap_append, hnone, List.append_nil]
    exact Picks.flatMap List.nodup_range fun file _ => (hnamed file).old_picks
  · intro paired hpaired
    obtain ⟨file, -, hmem⟩ := List.mem_flatMap.mp hpaired
    rcases List.mem_append.mp hmem with hmem | hmem
    · obtain ⟨hvia, old, hold, hname⟩ := (hnamed file).name paired hmem
      have holdfile := (hnamed file).old_picks.subset (List.mem_filterMap.mpr ⟨paired, hmem, hold⟩)
      have hnewfile := (hnamed file).new_perm.mem_iff.mp
        (List.mem_append_left _ (List.mem_map_of_mem hmem))
      have hfile : old.file = paired.new.file := by
        rw [of_decide_eq_true (List.mem_filter.mp holdfile).2,
          of_decide_eq_true (List.mem_filter.mp hnewfile).2]
      unfold Paired.Respects
      rcases hvia with hvia | hvia
      · exact ⟨by rw [hvia]; decide, by rw [hvia]; exact ⟨old, hold, hfile, hname⟩⟩
      · exact ⟨by rw [hvia]; decide, by rw [hvia]; exact ⟨old, hold, hfile, hname⟩⟩
    · obtain ⟨new, -, rfl⟩ := List.mem_map.mp hmem
      exact ⟨by simp [unpaired], rfl⟩

theorem matchRun_append (files : List FileUnits) :
    matchRun files = bodyPaired files ++ namedPaired files :=
  matchRun_eq files

theorem map_new_matchRun (h : Indexed files) :
    ((matchRun files).map Paired.new).Perm (files.flatMap FileUnits.new) := by
  rw [matchRun_append, List.map_append]
  exact ((named_rest h).1.append_left _).trans (passed_bodies h).new_perm

theorem filterMap_old_matchRun (h : Indexed files) :
    Picks ((matchRun files).filterMap Paired.old) (files.flatMap FileUnits.old) := by
  have hperm := (passed_bodies h).old_perm
  have hrest := (named_rest h).2.1
  have hnodup := hperm.nodup_iff.mpr h.old.nodup
  rw [matchRun_append, List.filterMap_append]
  refine Picks.of_perm ⟨?_, ?_⟩ hperm
  · exact List.Nodup.append (List.Nodup.of_append_left hnodup) hrest.nodup fun old hold hagain =>
      List.disjoint_of_nodup_append hnodup hold (hrest.subset hagain)
  · exact List.append_subset.mpr ⟨List.subset_append_left _ _,
      fun old hold => List.mem_append_right _ (hrest.subset hold)⟩

theorem respects_matchRun (h : Indexed files) {paired : Paired} (hpaired : paired ∈ matchRun files) :
    paired.Respects := by
  rw [matchRun_append] at hpaired
  rcases List.mem_append.mp hpaired with hpaired | hpaired
  · obtain ⟨hvia, hold⟩ := (passed_bodies h).body paired hpaired
    unfold Paired.Respects
    rw [hvia]
    exact hold
  · exact ((named_rest h).2.2 paired hpaired).2

/-! ## Counting the pairs by body -/

/-- The pairs by body with one body key. -/
def bodyCount (key : Bytes) (run : List Paired) : Nat :=
  run.countP fun paired => paired.via = .body ∧ paired.new.unit.bodyKey = key

def keyCount (key : Bytes) (units : List UnitRef) : Nat :=
  units.countP fun unit => unit.unit.bodyKey = key

namespace Passed

variable {olds news : List UnitRef} {pass : Pass}

theorem keyCount_new (h : Passed olds news pass) (key : Bytes) :
    keyCount key news = bodyCount key pass.paired + keyCount key pass.newLeft := by
  have hpaired : keyCount key (pass.paired.map Paired.new) = bodyCount key pass.paired := by
    rw [keyCount, List.countP_map]
    refine List.countP_congr fun paired hpaired => ?_
    simp [(h.body paired hpaired).1]
  rw [← hpaired, keyCount, ← h.new_perm.countP_eq, List.countP_append]
  rfl

theorem keyCount_old (h : Passed olds news pass) (key : Bytes) :
    keyCount key olds = bodyCount key pass.paired + keyCount key pass.oldLeft := by
  have hpaired : keyCount key (pass.paired.filterMap Paired.old) = bodyCount key pass.paired := by
    rw [keyCount, List.countP_filterMap]
    refine List.countP_congr fun paired hpaired => ?_
    obtain ⟨hvia, old, hold, hkey⟩ := h.body paired hpaired
    simp [hvia, hold, hkey]
  rw [← hpaired, keyCount, ← h.old_perm.countP_eq, List.countP_append]
  rfl

theorem keyCount_left (h : Passed olds news pass) (key : Bytes) :
    keyCount key pass.newLeft = 0 ∨ keyCount key pass.oldLeft = 0 := by
  refine (h.used key).imp (fun hused => ?_) fun hused => ?_
  · exact List.countP_eq_zero.mpr fun new hmem => by simpa using hused new hmem
  · exact List.countP_eq_zero.mpr fun old hmem => by simpa using hused old hmem

/-- As many units of a body are paired as there are on the side with fewer. -/
theorem count (h : Passed olds news pass) (key : Bytes) :
    bodyCount key pass.paired = min (keyCount key olds) (keyCount key news) := by
  have hnew := h.keyCount_new key
  have hold := h.keyCount_old key
  have hleft := h.keyCount_left key
  omega

theorem eq_nil_of_keyCount {units : List UnitRef} (h : ∀ key, keyCount key units = 0) :
    units = [] := by
  refine List.eq_nil_iff_forall_not_mem.mpr fun unit hunit => ?_
  have hpos : 0 < keyCount unit.unit.bodyKey units :=
    List.countP_pos_iff.mpr ⟨unit, hunit, decide_eq_true rfl⟩
  rw [h unit.unit.bodyKey] at hpos
  exact absurd hpos (Nat.lt_irrefl 0)

/-- Nothing is left when the two sides have the same bodies. -/
theorem left_eq_nil (h : Passed olds news pass)
    (hsame : ∀ key, keyCount key olds = keyCount key news) :
    pass.newLeft = [] ∧ pass.oldLeft = [] := by
  have hzero (key : Bytes) :
      keyCount key pass.newLeft = 0 ∧ keyCount key pass.oldLeft = 0 := by
    have hnew := h.keyCount_new key
    have hold := h.keyCount_old key
    have hleft := h.keyCount_left key
    have hkey := hsame key
    omega
  exact ⟨eq_nil_of_keyCount fun key => (hzero key).1, eq_nil_of_keyCount fun key => (hzero key).2⟩

end Passed

theorem bodyCount_matchRun (h : Indexed files) (key : Bytes) :
    bodyCount key (matchRun files) = min (keyCount key (files.flatMap FileUnits.old))
      (keyCount key (files.flatMap FileUnits.new)) := by
  have hzero : bodyCount key (namedPaired files) = 0 := by
    refine List.countP_eq_zero.mpr fun paired hpaired => ?_
    simp [((named_rest h).2.2 paired hpaired).1]
  rw [← (passed_bodies h).count key, matchRun_append, bodyCount, List.countP_append]
  change _ + bodyCount key (namedPaired files) = _
  rw [hzero]
  rfl

/-- Units that are only renamed, reordered or moved are all paired by body. -/
theorem matchRun_of_same_bodies (h : Indexed files)
    (hsame : ((files.flatMap FileUnits.new).map (·.unit.bodyKey)).Perm
      ((files.flatMap FileUnits.old).map (·.unit.bodyKey))) :
    (∀ paired ∈ matchRun files, paired.via = .body) ∧
      ((matchRun files).filterMap Paired.old).Perm (files.flatMap FileUnits.old) := by
  have hpassed := passed_bodies h
  have hcount (key : Bytes) : keyCount key (files.flatMap FileUnits.old) =
      keyCount key (files.flatMap FileUnits.new) := by
    have hkeys := hsame.countP_eq fun other => decide (other = key)
    rw [List.countP_map, List.countP_map] at hkeys
    exact hkeys.symm
  obtain ⟨hnew, hold⟩ := hpassed.left_eq_nil hcount
  have hnone : namedPaired files = [] := by
    have hrest := (named_rest h).1
    rw [hnew] at hrest
    exact List.map_eq_nil_iff.mp hrest.eq_nil
  rw [matchRun_append, hnone, List.append_nil]
  refine ⟨fun paired hpaired => (hpassed.body paired hpaired).1, ?_⟩
  have hperm := hpassed.old_perm
  rwa [hold, List.append_nil] at hperm

/-- Each unit of a run that changes nothing is paired with itself. -/
theorem matchRun_self (h : Indexed files) (hsame : ∀ file ∈ files, file.old = file.new) :
    matchRun files = (files.flatMap FileUnits.new).map fun unit =>
      { old := some unit, new := unit, via := .body } := by
  have hpass (file : FileUnits) (hfile : file ∈ files) :
      bodyPass file.old file.new =
        { paired := file.new.map fun unit => { old := some unit, new := unit, via := .body }
          newLeft := []
          oldLeft := [] } := by
    rw [hsame file hfile]
    exact bodyPass_self (h.new.of_mem_flatMap hfile)
  have hpaired : (filePass files).paired = (files.flatMap FileUnits.new).map fun unit =>
      { old := some unit, new := unit, via := .body } := by
    unfold filePass
    rw [List.flatMap_map, List.map_flatMap]
    exact List.flatMap_congr fun file hfile => by rw [hpass file hfile]
  have hleft : (filePass files).oldLeft = [] ∧ (filePass files).newLeft = [] := by
    unfold filePass
    simp only [List.flatMap_map, List.flatMap_eq_nil_iff]
    exact ⟨fun file hfile => by rw [hpass file hfile], fun file hfile => by rw [hpass file hfile]⟩
  have hmoved : movedPass files = { paired := [], oldLeft := [], newLeft := [] } := by
    unfold movedPass
    rw [hleft.1, hleft.2]
    exact bodyPass_self List.nodup_nil
  have hnone : namedPaired files = [] := by
    have hrest := (named_rest h).1
    rw [hmoved] at hrest
    exact List.map_eq_nil_iff.mp hrest.eq_nil
  rw [matchRun_append, bodyPaired, hmoved, hnone, hpaired, List.append_nil, List.append_nil]

end Run

/-! ## The units of the files -/

theorem map_id_unitRefs (file : Nat) (path : Text) (units : List Metrics.Unit) :
    (unitRefs file path units).map UnitRef.id =
      (List.range units.length).map fun index => (file, index) := by
  unfold unitRefs
  rw [List.mapIdx_eq_zipIdx_map, List.map_map, List.range_eq_range', ← List.zipIdx_map_snd 0 units,
    List.map_map]
  rfl

theorem distinct_unitRefs {α : Type} (items : List α) (path : α → Text)
    (units : α → List Metrics.Unit) :
    Distinct (items.zipIdx.flatMap fun item => unitRefs item.2 (path item.1) (units item.1)) := by
  rw [Distinct, List.map_flatMap]
  simp only [map_id_unitRefs]
  exact nodup_flatMap_zipIdx fun _ _ => List.nodup_range

theorem fileUnits_eq {π : Type} (measured : List (Sides π)) :
    fileUnits measured = measured.zipIdx.map fun item =>
      { old := unitRefs item.2 item.1.path (units item.1.old)
        new := unitRefs item.2 item.1.path (units item.1.new) } :=
  List.mapIdx_eq_zipIdx_map

theorem indexed_fileUnits {π : Type} (measured : List (Sides π)) : Indexed (fileUnits measured) := by
  rw [fileUnits_eq]
  refine ⟨?_, ?_, ?_⟩
  · rw [List.flatMap_map]
    exact distinct_unitRefs measured Sides.path fun sides => units sides.old
  · rw [List.flatMap_map]
    exact distinct_unitRefs measured Sides.path fun sides => units sides.new
  · intro new hnew
    rw [List.flatMap_map] at hnew
    obtain ⟨item, hitem, hmem⟩ := List.mem_flatMap.mp hnew
    obtain ⟨-, hlt, -⟩ := List.mem_zipIdx hitem
    have hid := List.mem_map_of_mem (f := UnitRef.id) hmem
    rw [map_id_unitRefs] at hid
    obtain ⟨index, -, heq⟩ := List.mem_map.mp hid
    rw [List.length_map, List.length_zipIdx, ← (Prod.mk.inj heq).1]
    omega

/-- The matching pairs every new unit once and every old unit at most once, by equal bodies or by
equal names in one file. As many units of a body are paired by it as there are on the side with
fewer, so units that are renamed, reordered or moved are all paired by body, and units that do not
change are paired with themselves. -/
theorem matchRun_matching {π : Type} (measured : List (Sides π)) :
    let files := fileUnits measured
    let run := matchRun files
    (files.flatMap FileUnits.new).Nodup ∧
      (run.map Paired.new).Perm (files.flatMap FileUnits.new) ∧
      Picks (run.filterMap Paired.old) (files.flatMap FileUnits.old) ∧
      (∀ paired ∈ run, paired.Respects) ∧
      (∀ key, bodyCount key run = min (keyCount key (files.flatMap FileUnits.old))
        (keyCount key (files.flatMap FileUnits.new))) ∧
      (((files.flatMap FileUnits.new).map (·.unit.bodyKey)).Perm
          ((files.flatMap FileUnits.old).map (·.unit.bodyKey)) →
        (∀ paired ∈ run, paired.via = .body) ∧
          (run.filterMap Paired.old).Perm (files.flatMap FileUnits.old)) ∧
      ((∀ sides ∈ measured, units sides.new = units sides.old) →
        run = (files.flatMap FileUnits.new).map fun unit =>
          { old := some unit, new := unit, via := .body }) := by
  have h := indexed_fileUnits measured
  refine ⟨h.new.nodup, map_new_matchRun h, filterMap_old_matchRun h,
    fun _ => respects_matchRun h, bodyCount_matchRun h, matchRun_of_same_bodies h, fun hsame => ?_⟩
  refine matchRun_self h fun file hfile => ?_
  obtain ⟨index, hlt, rfl⟩ := List.mem_mapIdx.mp hfile
  dsimp only
  rw [hsame _ (List.getElem_mem hlt)]

end Agentless.Checks
