import Agentless.Library.Sequence
import Mathlib.Data.List.Sort
import Mathlib.Order.Basic

/-!
# The vote

The candidates of the strongest rung that any of them reaches are grouped by equivalence key, and
the groups are ranked by size, ties to the earliest first appearance. Every candidate has one place:
excluded, filtered out by the rung, or in one cluster.
-/

namespace Agentless.Patch.Vote

/-- The rung of the ladder that answered, the strongest evidence first. -/
inductive Tier where
  | reproduction | regression | applied | none
deriving DecidableEq, Repr

inductive Regression where
  | notMeasured | failed | passed
deriving DecidableEq, Repr

structure VoteCandidate where
  id : Text
  index : Int
  applied : Bool
  equivalenceKey : Option Text
  regression : Regression
  reproductionPassed : Bool
deriving DecidableEq, Repr

def VoteCandidate.regressionPassed (candidate : VoteCandidate) : Bool :=
  candidate.regression = .passed

structure Cluster where
  rank : Nat
  key : Text
  size : Nat
  members : List Text
  representative : Text
  firstAppearance : Int
  regressionPassed : Nat
  reproductionPassed : Nat
deriving DecidableEq, Repr

structure Exclusion where
  id : Text
  reason : Text
deriving DecidableEq, Repr

structure VoteReport where
  tier : Tier
  reproValid : Bool
  considered : Nat
  survived : Nat
  clusters : List Cluster
  excluded : List Exclusion
deriving DecidableEq, Repr

def VoteReport.winner (report : VoteReport) : Option Text :=
  report.clusters.head?.map Cluster.representative

def exclusion (candidate : VoteCandidate) : Option Text :=
  if !candidate.applied then some "the patch did not apply".toList
  else if candidate.regression = .notMeasured then
    some "the test command never ran for it, so nothing was measured".toList
  else if candidate.equivalenceKey.all (· = []) then
    some "the patch applied but changed nothing, so it has no equivalence key".toList
  else none

/-! ## The ladder -/

/-- What a rung asks of a candidate. -/
def Tier.keeps : Tier → VoteCandidate → Bool
  | .reproduction, candidate => candidate.regressionPassed && candidate.reproductionPassed
  | .regression, candidate => candidate.regressionPassed
  | .applied, _ => true
  | .none, _ => false

/-- The rungs from the strongest on; without a valid reproduction test its rung is left out. -/
def usable (reproValid : Bool) : List Tier :=
  [.reproduction, .regression, .applied].filter fun tier => reproValid || tier ≠ .reproduction

def ladder (eligible : List VoteCandidate) (reproValid : Bool) : Tier × List VoteCandidate :=
  ((usable reproValid).findSome? fun tier =>
    let survivors := eligible.filter tier.keeps
    if survivors = [] then none else some (tier, survivors)).getD (.none, [])

/-! ## Clusters -/

def keyOf (candidate : VoteCandidate) : Text := candidate.equivalenceKey.getD []

/-- Puts the candidate into the group of its key, or into a new one after the others. -/
def place (grouped : List (Text × List VoteCandidate)) (candidate : VoteCandidate) :
    List (Text × List VoteCandidate) :=
  match grouped.findIdx? (·.1 = keyOf candidate) with
  | some slot => grouped.modify slot fun (key, members) => (key, members ++ [candidate])
  | none => grouped ++ [(keyOf candidate, [candidate])]

def byIndex (candidates : List VoteCandidate) : List VoteCandidate :=
  candidates.insertionSort fun x y => x.index ≤ y.index

/-- The least index of a group, which is never empty. -/
def first (members : List VoteCandidate) : Int := ((members.map VoteCandidate.index).min?).getD 0

/-- The larger group comes first, and of two of one size the one that appears first. -/
def ahead (x y : Text × List VoteCandidate) : Prop :=
  y.2.length < x.2.length ∨ x.2.length = y.2.length ∧ first x.2 ≤ first y.2

instance : DecidableRel ahead := fun x y =>
  inferInstanceAs (Decidable (y.2.length < x.2.length ∨ x.2.length = y.2.length ∧ first x.2 ≤ first y.2))

def cluster (rank : Nat) (key : Text) (members : List VoteCandidate) : Cluster :=
  let members := byIndex members
  { rank := rank
    key := key
    size := members.length
    members := members.map VoteCandidate.id
    representative := (members.head?.map VoteCandidate.id).getD []
    firstAppearance := (members.head?.map VoteCandidate.index).getD 0
    regressionPassed := members.countP VoteCandidate.regressionPassed
    reproductionPassed := members.countP VoteCandidate.reproductionPassed }

def groups (survivors : List VoteCandidate) : List (Text × List VoteCandidate) :=
  (survivors.foldl place []).insertionSort ahead

def clusters (survivors : List VoteCandidate) : List Cluster :=
  (groups survivors).mapIdx fun position (key, members) => cluster (position + 1) key members

def rank (candidates : List VoteCandidate) (reproValid : Bool) : VoteReport :=
  let ordered := byIndex candidates
  let eligible := ordered.filter fun candidate => (exclusion candidate).isNone
  let excluded := ordered.filterMap fun candidate =>
    (exclusion candidate).map fun reason => ⟨candidate.id, reason⟩
  let (tier, survivors) := ladder eligible reproValid
  { tier := tier
    reproValid := reproValid
    considered := candidates.length
    survived := survivors.length
    clusters := clusters survivors
    excluded := excluded }

/-! ## Grouping -/

/-- The groups hold the candidates placed so far, each under its key, and no key comes twice. -/
structure Grouped (done : List VoteCandidate) (grouped : List (Text × List VoteCandidate)) :
    Prop where
  places : (grouped.flatMap Prod.snd).Perm done
  nodup : (grouped.map Prod.fst).Nodup
  keyed : ∀ group ∈ grouped, ∀ candidate ∈ group.2, keyOf candidate = group.1
  nonempty : ∀ group ∈ grouped, group.2 ≠ []

theorem modify_length_append {α : Type} (before after : List α) (item : α) (f : α → α) :
    (before ++ item :: after).modify before.length f = before ++ f item :: after := by
  induction before with
  | nil => rfl
  | cons other before ih => simp [ih]

theorem Grouped.place {done : List VoteCandidate} {grouped : List (Text × List VoteCandidate)}
    (h : Grouped done grouped) (candidate : VoteCandidate) :
    Grouped (done ++ [candidate]) (place grouped candidate) := by
  unfold Vote.place
  cases hslot : grouped.findIdx? (·.1 = keyOf candidate) with
  | none =>
    have hnew : keyOf candidate ∉ grouped.map Prod.fst := by
      intro hmem
      obtain ⟨group, hgroup, hkey⟩ := List.mem_map.mp hmem
      have := List.findIdx?_eq_none_iff.mp hslot group hgroup
      simp [hkey] at this
    refine ⟨?_, ?_, ?_, ?_⟩
    · simpa using h.places.append_right [candidate]
    · rw [List.map_append, List.nodup_append]
      refine ⟨h.nodup, by simp, ?_⟩
      rintro key hkey _ hother rfl
      simp only [List.map_cons, List.map_nil, List.mem_singleton] at hother
      exact hnew (hother ▸ hkey)
    · intro group hgroup member hmember
      rcases List.mem_append.mp hgroup with hold | hnew
      · exact h.keyed group hold member hmember
      · obtain rfl := List.mem_singleton.mp hnew
        obtain rfl := List.mem_singleton.mp hmember
        rfl
    · intro group hgroup
      rcases List.mem_append.mp hgroup with hold | hnew
      · exact h.nonempty group hold
      · obtain rfl := List.mem_singleton.mp hnew
        exact List.cons_ne_nil _ _
  | some slot =>
    obtain ⟨hlt, hkey, -⟩ := List.findIdx?_eq_some_iff_getElem.mp hslot
    obtain ⟨before, ⟨key, members⟩, after, rfl, rfl⟩ : ∃ before group after,
        grouped = before ++ group :: after ∧ before.length = slot :=
      ⟨grouped.take slot, grouped[slot], grouped.drop (slot + 1), by simp, by simp; omega⟩
    obtain rfl : key = keyOf candidate := by simpa using hkey
    dsimp only
    rw [modify_length_append]
    refine ⟨?_, by simpa using h.nodup, ?_, ?_⟩
    · refine List.Perm.trans ?_ (h.places.append_right [candidate])
      simp only [List.flatMap_append, List.flatMap_cons, List.append_assoc]
      exact ((@List.perm_append_comm _ [candidate] _).append_left members).append_left _
    · intro group hgroup member hmember
      rcases List.mem_append.mp hgroup with hbefore | hgroup
      · exact h.keyed group (List.mem_append_left _ hbefore) member hmember
      · rcases List.mem_cons.mp hgroup with rfl | hafter
        · rcases List.mem_append.mp hmember with hold | hnew
          · exact h.keyed (keyOf candidate, members) (by simp) member hold
          · rw [List.mem_singleton.mp hnew]
        · exact h.keyed group (by simp [hafter]) member hmember
    · intro group hgroup
      rcases List.mem_append.mp hgroup with hbefore | hgroup
      · exact h.nonempty group (List.mem_append_left _ hbefore)
      · rcases List.mem_cons.mp hgroup with rfl | hafter
        · simp
        · exact h.nonempty group (by simp [hafter])

theorem grouped_foldl (survivors : List VoteCandidate) :
    Grouped survivors (survivors.foldl Vote.place []) := by
  induction survivors using List.reverseRecOn with
  | nil => exact ⟨.refl _, List.nodup_nil, by simp, by simp⟩
  | append_singleton survivors candidate ih =>
    rw [List.foldl_append]
    exact ih.place candidate

instance : Std.Total ahead where
  total x y := by
    unfold ahead
    omega

instance : IsTrans (Text × List VoteCandidate) ahead where
  trans x y z hxy hyz := by
    unfold ahead at *
    omega

theorem Grouped.groups (survivors : List VoteCandidate) : Grouped survivors (groups survivors) := by
  have hperm : (Vote.groups survivors).Perm (survivors.foldl Vote.place []) :=
    List.perm_insertionSort _ _
  have h := grouped_foldl survivors
  exact ⟨(hperm.flatMap_right _).trans h.places, (hperm.map _).nodup_iff.mpr h.nodup,
    fun group hgroup => h.keyed group (hperm.mem_iff.mp hgroup),
    fun group hgroup => h.nonempty group (hperm.mem_iff.mp hgroup)⟩

/-! ## The order of the groups -/

theorem first_mem {members : List VoteCandidate} (h : members ≠ []) :
    ∃ member ∈ members, member.index = first members := by
  have hsome : (members.map VoteCandidate.index).min? ≠ none := by
    simpa [List.min?_eq_none_iff] using h
  obtain ⟨least, hleast⟩ := Option.ne_none_iff_exists'.mp hsome
  obtain ⟨member, hmember, hindex⟩ := List.mem_map.mp (List.min?_eq_some_iff.mp hleast).1
  exact ⟨member, hmember, by rw [first, hleast, Option.getD_some, hindex]⟩

/-- Groups of one size never appear at the same index. -/
theorem groups_pairwise {survivors : List VoteCandidate}
    (hdistinct : (survivors.map VoteCandidate.index).Nodup) :
    (groups survivors).Pairwise fun x y =>
      y.2.length < x.2.length ∨ x.2.length = y.2.length ∧ first x.2 < first y.2 := by
  have h := Grouped.groups survivors
  have hahead : (groups survivors).Pairwise ahead := List.pairwise_insertionSort _ _
  have hkeys : (groups survivors).Pairwise fun x y => x.1 ≠ y.1 := List.pairwise_map.mp h.nodup
  refine List.Pairwise.imp_of_mem ?_ (hahead.and hkeys)
  rintro x y hx hy ⟨hxy, hne⟩
  refine hxy.imp_right fun ⟨hsize, hle⟩ => ⟨hsize, lt_of_le_of_ne hle fun hsame => hne ?_⟩
  obtain ⟨member, hmember, hindex⟩ := first_mem (h.nonempty x hx)
  obtain ⟨other, hother, hindex'⟩ := first_mem (h.nonempty y hy)
  have hplaced {group : Text × List VoteCandidate} {candidate : VoteCandidate}
      (hgroup : group ∈ groups survivors) (hcandidate : candidate ∈ group.2) : candidate ∈ survivors :=
    h.places.mem_iff.mp (List.mem_flatMap.mpr ⟨group, hgroup, hcandidate⟩)
  have heq : member = other := List.inj_on_of_nodup_map hdistinct (hplaced hx hmember)
    (hplaced hy hother) (by rw [hindex, hindex', hsame])
  rw [← h.keyed x hx member hmember, ← h.keyed y hy other hother, heq]

/-! ## The ladder's answer -/

/-- The place of a rung, the strongest first. -/
def Tier.place : Tier → Nat
  | .reproduction => 0
  | .regression => 1
  | .applied => 2
  | .none => 3

/-- The survivors are the eligible candidates of the rung, and no stronger usable rung has one. -/
structure Strongest (eligible : List VoteCandidate) (reproValid : Bool) (tier : Tier)
    (survivors : List VoteCandidate) : Prop where
  kept : survivors = eligible.filter tier.keeps
  answers : tier = .none ∧ eligible = [] ∨ tier ∈ usable reproValid ∧ survivors ≠ []
  stronger : ∀ other ∈ usable reproValid, other.place < tier.place →
    ∀ candidate ∈ eligible, other.keeps candidate = false

theorem filter_applied (eligible : List VoteCandidate) :
    eligible.filter Tier.applied.keeps = eligible :=
  List.filter_eq_self.mpr fun _ _ => rfl

theorem keeps_eq_false {eligible : List VoteCandidate} {tier : Tier}
    (h : eligible.filter tier.keeps = []) :
    ∀ candidate ∈ eligible, tier.keeps candidate = false := by
  simpa [List.filter_eq_nil_iff] using h

theorem strongest_of_split {eligible : List VoteCandidate} {reproValid : Bool} {tier : Tier}
    {before after : List Tier} (husable : usable reproValid = before ++ tier :: after)
    (hbefore : ∀ other ∈ before, eligible.filter other.keeps = [])
    (hkept : eligible.filter tier.keeps ≠ []) :
    Strongest eligible reproValid tier (eligible.filter tier.keeps) where
  kept := rfl
  answers := .inr ⟨by rw [husable]; simp, hkept⟩
  stronger other hother hplace := by
    refine keeps_eq_false (hbefore other ?_)
    have hsorted : (usable reproValid).Pairwise fun x y => x.place < y.place := by
      cases reproValid <;> decide
    rw [husable] at hother hsorted
    rcases List.mem_append.mp hother with hmem | hmem
    · exact hmem
    · rcases List.mem_cons.mp hmem with rfl | hafter
      · exact absurd hplace (lt_irrefl _)
      · have := (List.pairwise_cons.mp (List.pairwise_append.mp hsorted).2.1).1 other hafter
        omega

theorem ladder_strongest (eligible : List VoteCandidate) (reproValid : Bool) :
    Strongest eligible reproValid (ladder eligible reproValid).1 (ladder eligible reproValid).2 := by
  unfold ladder
  cases hfound : (usable reproValid).findSome? fun tier =>
      let survivors := eligible.filter tier.keeps
      if survivors = [] then none else some (tier, survivors) with
  | none =>
    have hnone := List.findSome?_eq_none_iff.mp hfound
    have happlied : Tier.applied ∈ usable reproValid := by cases reproValid <;> decide
    have hempty : eligible = [] := by simpa [filter_applied] using hnone .applied happlied
    subst hempty
    exact ⟨rfl, .inl ⟨rfl, rfl⟩, by simp⟩
  | some answer =>
    obtain ⟨before, tier, after, husable, htier, hbefore⟩ := List.findSome?_eq_some_iff.mp hfound
    dsimp only at htier
    split_ifs at htier with hempty
    obtain rfl := Option.some.inj htier
    refine strongest_of_split husable (fun other hother => ?_) hempty
    simpa using hbefore other hother

/-! ## The report -/

/-- The lists behind a report: each candidate has one place in them, and the groups are those of the
rung that answered. -/
structure Places (candidates : List VoteCandidate) (reproValid : Bool) (report : VoteReport)
    (excluded filtered : List VoteCandidate) (grouped : List (Text × List VoteCandidate)) : Prop where
  places : (excluded ++ (filtered ++ grouped.flatMap Prod.snd)).Perm candidates
  reported : report.excluded = excluded.map fun candidate =>
    ⟨candidate.id, (exclusion candidate).getD []⟩
  reasons : ∀ candidate ∈ excluded, (exclusion candidate).isSome
  ranked : report.clusters =
    grouped.mapIdx fun position group => cluster (position + 1) group.1 group.2
  sorted : excluded.Pairwise fun x y => x.index < y.index
  survived : report.survived = (grouped.flatMap Prod.snd).length
  nonempty : ∀ group ∈ grouped, group.2 ≠ []
  answers : report.tier = .none ∧ grouped = [] ∨ report.tier ∈ usable reproValid ∧ grouped ≠ []
  eligible : ∀ candidate ∈ filtered ++ grouped.flatMap Prod.snd, exclusion candidate = none
  weaker : ∀ candidate ∈ filtered, report.tier.keeps candidate = false
  kept : ∀ group ∈ grouped, ∀ candidate ∈ group.2, report.tier.keeps candidate = true
  stronger : ∀ other ∈ usable reproValid, other.place < report.tier.place →
    ∀ candidate ∈ candidates, exclusion candidate = none → other.keeps candidate = false
  same : ∀ group ∈ grouped, ∀ candidate ∈ group.2, keyOf candidate = group.1
  different : grouped.Pairwise fun x y => x.1 ≠ y.1
  order : grouped.Pairwise fun x y =>
    y.2.length < x.2.length ∨ x.2.length = y.2.length ∧ first x.2 < first y.2

theorem byIndex_perm (candidates : List VoteCandidate) : (byIndex candidates).Perm candidates :=
  List.perm_insertionSort _ _

theorem byIndex_sorted {candidates : List VoteCandidate}
    (hdistinct : (candidates.map VoteCandidate.index).Nodup) :
    (byIndex candidates).Pairwise fun x y => x.index < y.index := by
  have : Std.Total fun x y : VoteCandidate => x.index ≤ y.index :=
    ⟨fun x y => le_total x.index y.index⟩
  have : IsTrans VoteCandidate fun x y => x.index ≤ y.index := ⟨fun _ _ _ => le_trans⟩
  have hle : (byIndex candidates).Pairwise fun x y => x.index ≤ y.index :=
    List.pairwise_insertionSort _ _
  have hne : (byIndex candidates).Pairwise fun x y => x.index ≠ y.index :=
    List.pairwise_map.mp (((byIndex_perm candidates).map _).nodup_iff.mpr hdistinct)
  exact (hle.and hne).imp fun h => lt_of_le_of_ne h.1 h.2

theorem reported_eq (ordered : List VoteCandidate) :
    (ordered.filterMap fun candidate =>
      (exclusion candidate).map (Exclusion.mk candidate.id)) =
      (ordered.filter fun candidate => (exclusion candidate).isSome).map fun candidate =>
        ⟨candidate.id, (exclusion candidate).getD []⟩ := by
  induction ordered with
  | nil => rfl
  | cons candidate ordered ih =>
    cases h : exclusion candidate with
    | none => simp [h, ih]
    | some reason => simp [h, ih]

theorem exclusion_perm (ordered : List VoteCandidate) :
    ((ordered.filter fun candidate => (exclusion candidate).isSome) ++
      ordered.filter fun candidate => (exclusion candidate).isNone).Perm ordered := by
  have h := List.filter_append_perm (fun candidate => (exclusion candidate).isSome) ordered
  have hrest : (ordered.filter fun candidate => !(exclusion candidate).isSome) =
      ordered.filter fun candidate => (exclusion candidate).isNone :=
    List.filter_congr fun candidate _ => by simp
  rwa [hrest] at h

theorem rank_places {candidates : List VoteCandidate}
    (hdistinct : (candidates.map VoteCandidate.index).Nodup) (reproValid : Bool) :
    ∃ excluded filtered grouped,
      Places candidates reproValid (rank candidates reproValid) excluded filtered grouped := by
  have hordered := byIndex_perm candidates
  set eligible := (byIndex candidates).filter fun candidate => (exclusion candidate).isNone
    with heligible
  have hstrongest := ladder_strongest eligible reproValid
  have hgrouped := Grouped.groups (ladder eligible reproValid).2
  have hsub : (ladder eligible reproValid).2.Sublist eligible := by
    rw [hstrongest.kept]
    exact List.filter_sublist
  have hnodup : ((ladder eligible reproValid).2.map VoteCandidate.index).Nodup :=
    ((hordered.map _).nodup_iff.mpr hdistinct).sublist
      ((hsub.trans List.filter_sublist).map VoteCandidate.index)
  have hnone : ∀ candidate ∈ eligible, exclusion candidate = none := by
    simp [heligible, List.mem_filter]
  have hmem : ∀ candidate ∈ candidates, exclusion candidate = none → candidate ∈ eligible :=
    fun candidate hcandidate h =>
      List.mem_filter.mpr ⟨hordered.mem_iff.mpr hcandidate, by simp [h]⟩
  have hplaced : ∀ candidate ∈ (groups (ladder eligible reproValid).2).flatMap Prod.snd,
      candidate ∈ eligible ∧ (ladder eligible reproValid).1.keeps candidate = true := by
    intro candidate hcandidate
    have hkept := hgrouped.places.mem_iff.mp hcandidate
    rw [hstrongest.kept] at hkept
    exact List.mem_filter.mp hkept
  refine ⟨(byIndex candidates).filter fun candidate => (exclusion candidate).isSome,
    eligible.filter fun candidate => !(ladder eligible reproValid).1.keeps candidate,
    groups (ladder eligible reproValid).2, ?_⟩
  constructor
  · refine ((exclusion_perm _).symm.trans ?_).symm.trans hordered
    refine List.Perm.append_left _ (List.Perm.symm ?_)
    refine (List.Perm.append_left _ hgrouped.places).trans ?_
    rw [hstrongest.kept]
    exact List.perm_append_comm.trans (List.filter_append_perm _ _)
  · exact reported_eq _
  · exact fun candidate hcandidate => by simpa using (List.mem_filter.mp hcandidate).2
  · rfl
  · exact (byIndex_sorted hdistinct).filter _
  · exact hgrouped.places.length_eq.symm
  · exact hgrouped.nonempty
  · refine hstrongest.answers.imp (fun ⟨htier, hempty⟩ => ⟨htier, ?_⟩)
      fun ⟨husable, hsome⟩ => ⟨husable, fun hnil => hsome ?_⟩
    · have hsurvivors : (ladder eligible reproValid).2 = [] := by rw [hstrongest.kept, hempty]; rfl
      rw [hsurvivors]
      rfl
    · simpa [hnil] using hgrouped.places.symm
  · intro candidate hcandidate
    rcases List.mem_append.mp hcandidate with hfiltered | hclustered
    · exact hnone candidate (List.mem_of_mem_filter hfiltered)
    · exact hnone candidate (hplaced candidate hclustered).1
  · exact fun candidate hcandidate =>
      (Bool.not_eq_true' _).mp (List.mem_filter.mp hcandidate).2
  · exact fun group hgroup candidate hcandidate =>
      (hplaced candidate (List.mem_flatMap.mpr ⟨group, hgroup, hcandidate⟩)).2
  · exact fun other husable hplace candidate hcandidate h =>
      hstrongest.stronger other husable hplace candidate (hmem candidate hcandidate h)
  · exact hgrouped.keyed
  · exact List.pairwise_map.mp hgrouped.nodup
  · exact groups_pairwise hnodup

theorem byIndex_eq_of_perm {candidates candidates' : List VoteCandidate}
    (hdistinct : (candidates.map VoteCandidate.index).Nodup) (h : candidates'.Perm candidates) :
    byIndex candidates' = byIndex candidates :=
  Sequence.insertionSort_eq_of_perm VoteCandidate.index
    (h.trans (byIndex_perm candidates).symm) (byIndex_sorted hdistinct)

/-! ## What a report says -/

/-- The candidate can vote: its patch applied, the tests ran on it, and it has a key. -/
structure VoteCandidate.Eligible (candidate : VoteCandidate) : Prop where
  applied : candidate.applied = true
  measured : candidate.regression ≠ .notMeasured
  keyed : ∃ key, candidate.equivalenceKey = some key ∧ key ≠ []

theorem exclusion_eq_none_iff {candidate : VoteCandidate} :
    exclusion candidate = none ↔ candidate.Eligible := by
  unfold exclusion
  constructor
  · intro h
    split_ifs at h with happlied hmeasured hkey
    refine ⟨by simpa using happlied, hmeasured, ?_⟩
    cases hequivalence : candidate.equivalenceKey with
    | none => simp [hequivalence] at hkey
    | some key => exact ⟨key, rfl, by simpa [hequivalence] using hkey⟩
  · rintro ⟨happlied, hmeasured, key, hequivalence, hkey⟩
    simp [happlied, hmeasured, hequivalence, hkey]

/-- The candidate did what the rung asks. The reproduction rung is there with a valid test only. -/
def Tier.Reached (reproValid : Bool) : Tier → VoteCandidate → Prop
  | .reproduction, candidate =>
    reproValid = true ∧ candidate.regression = .passed ∧ candidate.reproductionPassed = true
  | .regression, candidate => candidate.regression = .passed
  | .applied, _ => True
  | .none, _ => False

theorem Tier.reached_iff {reproValid : Bool} {tier : Tier} {candidate : VoteCandidate} :
    tier.Reached reproValid candidate ↔ tier ∈ usable reproValid ∧ tier.keeps candidate = true := by
  cases tier <;> cases reproValid <;>
    simp [Tier.Reached, Tier.keeps, usable, VoteCandidate.regressionPassed]

/-- What a cluster says of its members, who stand in the order of their first appearance. -/
structure Cluster.Describes (cluster : Cluster) (members : List VoteCandidate) : Prop where
  sorted : members.Pairwise fun x y => x.index < y.index
  keyed : ∀ member ∈ members, member.equivalenceKey = some cluster.key
  ids : cluster.members = members.map VoteCandidate.id
  size : cluster.size = members.length
  first : ∃ first rest, members = first :: rest ∧ cluster.representative = first.id ∧
    cluster.firstAppearance = first.index
  regressionPassed : cluster.regressionPassed = members.countP (·.regression = .passed)
  reproductionPassed : cluster.reproductionPassed = members.countP (·.reproductionPassed)

/-- Each candidate is in one of the excluded list, the filtered list or one cluster, and the
clusters are those of the strongest rung that an eligible candidate reaches. The lists hold the
candidates themselves, of whom the report keeps the ids. -/
structure Partitioned (candidates : List VoteCandidate) (reproValid : Bool) (report : VoteReport)
    (excluded filtered : List VoteCandidate) (clustered : List (List VoteCandidate)) : Prop where
  places : (excluded ++ (filtered ++ clustered.flatten)).Perm candidates
  described : List.Forall₂ Cluster.Describes report.clusters clustered
  reported : report.excluded = excluded.map fun candidate =>
    ⟨candidate.id, (exclusion candidate).getD []⟩
  sorted : excluded.Pairwise fun x y => x.index < y.index
  survived : report.survived = clustered.flatten.length
  ineligible : ∀ candidate ∈ excluded, ¬candidate.Eligible
  eligible : ∀ candidate ∈ filtered ++ clustered.flatten, candidate.Eligible
  reached : ∀ candidate ∈ clustered.flatten, report.tier.Reached reproValid candidate
  weaker : ∀ candidate ∈ filtered, ¬report.tier.Reached reproValid candidate
  stronger : ∀ other : Tier, other.place < report.tier.place →
    ∀ candidate ∈ candidates, candidate.Eligible → ¬other.Reached reproValid candidate
  answers : report.tier = .none ↔ report.clusters = []
  ranks : report.clusters.map Cluster.rank = List.range' 1 report.clusters.length
  different : report.clusters.Pairwise fun x y => x.key ≠ y.key
  order : report.clusters.Pairwise fun x y =>
    y.size < x.size ∨ x.size = y.size ∧ x.firstAppearance < y.firstAppearance

theorem describes_cluster {position : Nat} {key : Text} {members : List VoteCandidate}
    (hne : members ≠ []) (hdistinct : (members.map VoteCandidate.index).Nodup)
    (hkeyed : ∀ member ∈ members, member.equivalenceKey = some key) :
    (cluster position key members).Describes (byIndex members) := by
  have hperm := byIndex_perm members
  refine ⟨byIndex_sorted hdistinct, ?_, rfl, rfl, ?_, rfl, rfl⟩
  · exact fun member hmember => hkeyed member (hperm.mem_iff.mp hmember)
  · cases hfirst : byIndex members with
    | nil => exact absurd (hfirst ▸ hperm).symm.eq_nil hne
    | cons first rest => exact ⟨first, rest, rfl, by simp [cluster, hfirst], by simp [cluster, hfirst]⟩

theorem firstAppearance_cluster {position : Nat} {key : Text} {members : List VoteCandidate}
    (hne : members ≠ []) (hdistinct : (members.map VoteCandidate.index).Nodup) :
    (cluster position key members).firstAppearance = first members := by
  have hperm := byIndex_perm members
  have hsorted := byIndex_sorted hdistinct
  obtain ⟨least, hleast, hindex⟩ := first_mem hne
  cases hfirst : byIndex members with
  | nil => exact absurd (hfirst ▸ hperm).symm.eq_nil hne
  | cons head rest =>
    rw [hfirst] at hperm hsorted
    have hmin : first members ≤ head.index := by
      unfold first
      have hmem : head.index ∈ members.map VoteCandidate.index :=
        List.mem_map_of_mem (hperm.mem_iff.mp List.mem_cons_self)
      cases hsome : (members.map VoteCandidate.index).min? with
      | none => simp [List.min?_eq_none_iff.mp hsome] at hmem
      | some found => exact (List.min?_eq_some_iff.mp hsome).2 _ hmem
    have hhead : head.index ≤ least.index := by
      rcases List.mem_cons.mp (hperm.mem_iff.mpr hleast) with rfl | hrest
      · exact le_rfl
      · exact (List.rel_of_pairwise_cons hsorted hrest).le
    have : (cluster position key members).firstAppearance = head.index := by simp [cluster, hfirst]
    omega

section Places

variable {candidates : List VoteCandidate} {reproValid : Bool} {report : VoteReport}
  {excluded filtered : List VoteCandidate} {grouped : List (Text × List VoteCandidate)}

theorem Places.nodup_group (h : Places candidates reproValid report excluded filtered grouped)
    (hdistinct : (candidates.map VoteCandidate.index).Nodup) {group : Text × List VoteCandidate}
    (hgroup : group ∈ grouped) : (group.2.map VoteCandidate.index).Nodup := by
  have hall := (h.places.map VoteCandidate.index).nodup_iff.mpr hdistinct
  have hsub : group.2.Sublist (excluded ++ (filtered ++ grouped.flatMap Prod.snd)) :=
    ((List.sublist_flatten_of_mem (List.mem_map_of_mem hgroup)).trans
      (List.sublist_append_right _ _)).trans (List.sublist_append_right _ _)
  exact hall.sublist (hsub.map _)

theorem Places.keyed (h : Places candidates reproValid report excluded filtered grouped)
    {group : Text × List VoteCandidate} (hgroup : group ∈ grouped) {member : VoteCandidate}
    (hmember : member ∈ group.2) : member.equivalenceKey = some group.1 := by
  have hnone := h.eligible member (List.mem_append_right _
    (List.mem_flatMap.mpr ⟨group, hgroup, hmember⟩))
  obtain ⟨-, -, key, hkey, -⟩ := exclusion_eq_none_iff.mp hnone
  rw [hkey, ← h.same group hgroup member hmember, keyOf, hkey, Option.getD_some]

/-- The groups behind a report, in the order of their members' appearance. -/
theorem Places.partitioned (hdistinct : (candidates.map VoteCandidate.index).Nodup)
    (h : Places candidates reproValid report excluded filtered grouped) :
    Partitioned candidates reproValid report excluded filtered
      (grouped.map fun group => byIndex group.2) := by
  have hflatten : ((grouped.map fun group => byIndex group.2).flatten).Perm
      (grouped.flatMap Prod.snd) := by
    rw [← List.flatMap_def]
    exact List.Perm.flatMap_left _ fun group _ => byIndex_perm group.2
  have hmem {candidate : VoteCandidate}
      (hcandidate : candidate ∈ (grouped.map fun group => byIndex group.2).flatten) :
      ∃ group ∈ grouped, candidate ∈ group.2 :=
    List.mem_flatMap.mp (hflatten.mem_iff.mp hcandidate)
  constructor
  · exact ((hflatten.append_left _).append_left _).trans h.places
  · rw [h.ranked, List.forall₂_iff_get]
    refine ⟨by simp, fun i hi hi' => ?_⟩
    have hlt : i < grouped.length := by simpa using hi'
    have hat : grouped[i] ∈ grouped := List.getElem_mem hlt
    simp only [List.get_eq_getElem, List.getElem_mapIdx, List.getElem_map]
    exact describes_cluster (h.nonempty _ hat) (h.nodup_group hdistinct hat)
      fun _ hmember => h.keyed hat hmember
  · exact h.reported
  · exact h.sorted
  · rw [h.survived, hflatten.length_eq]
  · intro candidate hcandidate heligible
    have := h.reasons candidate hcandidate
    simp [exclusion_eq_none_iff.mpr heligible] at this
  · intro candidate hcandidate
    refine exclusion_eq_none_iff.mp (h.eligible candidate ?_)
    exact ((hflatten.append_left filtered).mem_iff).mp hcandidate
  · intro candidate hcandidate
    obtain ⟨group, hgroup, hmember⟩ := hmem hcandidate
    rcases h.answers with ⟨-, hnil⟩ | ⟨husable, -⟩
    · simp [hnil] at hgroup
    · exact Tier.reached_iff.mpr ⟨husable, h.kept group hgroup candidate hmember⟩
  · intro candidate hcandidate hreached
    have := (Tier.reached_iff.mp hreached).2
    rw [h.weaker candidate hcandidate] at this
    cases this
  · intro other hplace candidate hcandidate heligible hreached
    obtain ⟨husable, hkeeps⟩ := Tier.reached_iff.mp hreached
    rw [h.stronger other husable hplace candidate hcandidate
      (exclusion_eq_none_iff.mpr heligible)] at hkeeps
    cases hkeeps
  · rw [h.ranked, List.mapIdx_eq_nil_iff]
    rcases h.answers with ⟨htier, hnil⟩ | ⟨husable, hne⟩
    · simp [htier, hnil]
    · refine iff_of_false (fun htier => ?_) hne
      rw [htier] at husable
      cases reproValid <;> simp [usable] at husable
  · rw [h.ranked]
    refine List.ext_getElem (by simp) fun i hi hi' => ?_
    simp [cluster, Nat.add_comm]
  · rw [h.ranked, List.pairwise_iff_getElem]
    intro i j hi hj hij
    simp only [List.length_mapIdx] at hi hj
    simpa [cluster] using List.pairwise_iff_getElem.mp h.different i j hi hj hij
  · rw [h.ranked, List.pairwise_iff_getElem]
    intro i j hi hj hij
    simp only [List.length_mapIdx] at hi hj
    have hati : grouped[i] ∈ grouped := List.getElem_mem hi
    have hatj : grouped[j] ∈ grouped := List.getElem_mem hj
    have hahead := List.pairwise_iff_getElem.mp h.order i j hi hj hij
    have hsize {position : Nat} {group : Text × List VoteCandidate} :
        (cluster position group.1 group.2).size = group.2.length := (byIndex_perm group.2).length_eq
    simp only [List.getElem_mapIdx, hsize,
      firstAppearance_cluster (h.nonempty _ hati) (h.nodup_group hdistinct hati),
      firstAppearance_cluster (h.nonempty _ hatj) (h.nodup_group hdistinct hatj)]
    exact hahead

end Places

/-- Every candidate has one place, excluded, filtered out or in one cluster; the clusters hold the
candidates of the strongest rung that any reaches, by key, the largest first and of one size the
first to appear; and the order of the input does not matter. -/
theorem rank_partitions {candidates : List VoteCandidate}
    (hdistinct : (candidates.map VoteCandidate.index).Nodup) (reproValid : Bool) :
    (∃ excluded filtered clustered,
      Partitioned candidates reproValid (rank candidates reproValid) excluded filtered clustered) ∧
    ∀ candidates', candidates'.Perm candidates →
      rank candidates' reproValid = rank candidates reproValid := by
  obtain ⟨excluded, filtered, grouped, hplaces⟩ := rank_places hdistinct reproValid
  refine ⟨⟨excluded, filtered, _, hplaces.partitioned hdistinct⟩, fun candidates' h => ?_⟩
  simp only [rank, byIndex_eq_of_perm hdistinct h, h.length_eq]

def Pair.failing : VoteCandidate := ⟨"f".toList, 0, true, some "k".toList, .failed, false⟩

def Pair.passing : VoteCandidate := ⟨"p".toList, 1, true, some "k".toList, .passed, false⟩

theorem rank_partitions_pair :
    (∃ excluded filtered clustered, Partitioned [Pair.failing, Pair.passing] true
      (rank [Pair.failing, Pair.passing] true) excluded filtered clustered) ∧
    rank [Pair.passing, Pair.failing] true = rank [Pair.failing, Pair.passing] true := by
  have hdistinct : ([Pair.failing, Pair.passing].map VoteCandidate.index).Nodup := by decide
  obtain ⟨hplaces, hperm⟩ := rank_partitions hdistinct true
  exact ⟨hplaces, hperm _ (List.Perm.swap _ _ _)⟩

end Agentless.Patch.Vote
