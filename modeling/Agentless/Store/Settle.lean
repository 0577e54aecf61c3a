import Agentless.Library.Sequence
import Agentless.Store.Writer

/-!
# What a plan settles to

The folds of the plan and of the join are given in closed form, file by file: which files are
extracted, reused, skipped or failed, what each extracted file adds, and which paths go.
-/

namespace Agentless.Store

open Std Syntax

section Considered

variable (sha256 : Text → Bytes) (entry : Observed → Option Entry)

def Observed.planned (file : Observed) (text : FileText) : Extract :=
  ⟨text, file.measure, text.digest sha256⟩

/-- The row of `file` still describes `text`. -/
def Observed.unchanged (file : Observed) (text : FileText) : Bool :=
  (entry file).any fun entry => rowMatches entry (file.planned sha256 text) file.language

def Observed.whole (file : Observed) : Option FileText :=
  match file.read with
  | .text text => some text
  | _ => none

def Observed.extracted (file : Observed) : Option Extract :=
  file.whole.bind fun text =>
    if file.unchanged sha256 entry text then none else some (file.planned sha256 text)

def Observed.isReused (file : Observed) : Bool :=
  file.whole.any (file.unchanged sha256 entry)

def Observed.unread (file : Observed) : Option IndexFailure :=
  match file.read with
  | .unreadable reason => some ⟨file.path, reason⟩
  | _ => none

def Observed.skip (file : Observed) : Option IndexSkip :=
  match file.read with
  | .oversize size => some ⟨file.path, tooLarge size⟩
  | _ => none

theorem considered_eq (items : List (Observed × Nat)) (plan : Plan) :
    items.foldl (fun (plan : Plan) item => plan.consider sha256 item.2 item.1 (entry item.1)) plan =
      { plan with
        extract := plan.extract ++ items.filterMap fun item => item.1.extracted sha256 entry
        positions := plan.positions ++ items.filterMap fun item =>
          (item.1.extracted sha256 entry).map fun _ => item.2
        seen := plan.seen.insertMany (items.filterMap fun item => item.1.whole.map (·.path))
        reused := plan.reused + items.countP fun item => item.1.isReused sha256 entry
        failures := plan.failures ++ items.filterMap fun item =>
          item.1.unread.map fun failure => (item.2, failure)
        skips := plan.skips ++ items.filterMap fun item => item.1.skip } := by
  induction items generalizing plan with
  | nil => simp
  | cons item items ih =>
    rw [List.foldl_cons, ih]
    obtain ⟨⟨path, language, measure, read⟩, position⟩ := item
    cases read with
    | oversize size =>
      simp [Plan.consider, Observed.extracted, Observed.whole, Observed.isReused, Observed.unread,
        Observed.skip]
    | unreadable reason =>
      simp [Plan.consider, Observed.extracted, Observed.whole, Observed.isReused, Observed.unread,
        Observed.skip]
    | text text =>
      by_cases hsame : Observed.unchanged sha256 entry ⟨path, language, measure, .text text⟩ text
      · have hany := hsame
        simp only [Observed.unchanged, Observed.planned] at hany
        simp [Plan.consider, Plan.readable, hany, hsame, Observed.extracted, Observed.whole,
          Observed.isReused, Observed.unread, Observed.skip, TreeSet.insertMany_cons,
          Nat.add_assoc, Nat.add_comm]
      · have hany := hsame
        simp only [Observed.unchanged, Observed.planned] at hany
        simp [Plan.consider, Plan.readable, hany, hsame, Observed.extracted, Observed.whole,
          Observed.isReused, Observed.unread, Observed.skip, Observed.planned,
          TreeSet.insertMany_cons]

end Considered

section Joined

variable {Unparsable : Type} (display : Unparsable → Text)
  (parse : Extract → Except Unparsable Encoded)

/-- The row that a planned file adds when it parses. -/
def Extract.row (planned : Extract) : Option NewRow :=
  match parse planned with
  | .ok encoded => some ⟨planned.file, planned.digest, encoded⟩
  | .error _ => none

/-- The failure that a planned file adds when it does not parse. -/
def Extract.failure (planned : Extract) : Option IndexFailure :=
  match parse planned with
  | .ok _ => none
  | .error unparsable => some ⟨planned.file.path, display unparsable⟩

theorem joined_eq (items : List (Extract × Nat)) (joined : Joined) :
    items.foldl (fun (joined : Joined) item =>
        joined.add display item.1 item.2 (parse item.1)) joined =
      { rows := joined.rows ++ items.filterMap fun item => item.1.row parse
        seen := (items.filterMap fun item => item.1.failure display parse).foldl
          (fun seen failure => seen.erase failure.path) joined.seen
        failures := joined.failures ++ items.filterMap fun item =>
          (item.1.failure display parse).map fun failure => (item.2, failure) } := by
  induction items generalizing joined with
  | nil => simp
  | cons item items ih =>
    rw [List.foldl_cons, ih]
    cases hparse : parse item.1 with
    | ok encoded => simp [Joined.add, Extract.row, Extract.failure, hparse]
    | error unparsable => simp [Joined.add, Extract.row, Extract.failure, hparse]

theorem mem_foldl_erase (failures : List IndexFailure) (seen : TreeSet Text compare) (path : Text) :
    path ∈ failures.foldl (fun seen failure => seen.erase failure.path) seen ↔
      path ∈ seen ∧ ∀ failure ∈ failures, failure.path ≠ path := by
  induction failures generalizing seen with
  | nil => simp
  | cons failure failures ih =>
    rw [List.foldl_cons, ih]
    simp only [TreeSet.mem_erase, Std.compare_eq_iff_eq, ne_eq, List.forall_mem_cons]
    tauto

end Joined

/-- The row of a file that a run may reuse. -/
def Run.stored (run : Run) (db : Database) (file : Observed) : Option Entry :=
  let previous := loadPrevious db
  previous.entries[file.path]?.filter fun _ => !run.force && previous.analysis == some run.analysis

section Settles

variable {P : Payload} (sha256 : Text → Bytes) (build : Build P) (entry : Observed → Option Entry)

def Observed.newRow (file : Observed) : Option NewRow :=
  (file.extracted sha256 entry).bind fun planned => planned.row build.parsed

def Observed.unparsed (file : Observed) : Option IndexFailure :=
  (file.extracted sha256 entry).bind fun planned => planned.failure P.display build.parsed

def Observed.failed (file : Observed) : Option IndexFailure :=
  file.unread.or (file.unparsed sha256 build entry)

/-- What a run settles to, file by file. -/
structure Settles (observed : List Observed) (recorded : List Text) (settled : Settled) :
    Prop where
  rows : settled.rows.Perm (observed.filterMap (Observed.newRow sha256 build entry))
  failures : settled.failures = observed.filterMap (Observed.failed sha256 build entry)
  skips : settled.skips = observed.filterMap Observed.skip
  reused : settled.reused = observed.countP (Observed.isReused sha256 entry)
  delete : ∀ path, path ∈ settled.delete ↔ path ∈ recorded ∧
    ¬ (((∃ file ∈ observed, file.whole.map (·.path) = some path) ∧
        ∀ file ∈ observed, ∀ failure, file.unparsed sha256 build entry = some failure →
          failure.path ≠ path) ∧
      path ∉ settled.rows.map (·.file.path))

theorem unread_disjoint (file : Observed) (h : file.unread.isSome) :
    file.unparsed sha256 build entry = none := by
  unfold Observed.unread at h
  unfold Observed.unparsed Observed.extracted Observed.whole
  cases hread : file.read <;> simp_all

/-- The failures of the plan and of the join, sorted by walk position, are in walk order. -/
theorem failures_sorted (observed : List Observed) :
    ((observed.zipIdx.filterMap (fun item => item.1.unread.map fun failure => (item.2, failure)) ++
        observed.zipIdx.filterMap (fun item => (item.1.unparsed sha256 build entry).map
          fun failure => (item.2, failure))).insertionSort (fun a b => a.1 ≤ b.1)).map (·.2) =
      observed.filterMap (Observed.failed sha256 build entry) := by
  have hperm := Sequence.filterMap_append_perm
    (fun item : Observed × Nat => item.1.unread.map fun failure => (item.2, failure))
    (fun item => (item.1.unparsed sha256 build entry).map fun failure => (item.2, failure))
    observed.zipIdx (by
      intro item _ hsome
      simp only [Option.isSome_map] at hsome
      simp [unread_disjoint sha256 build entry item.1 hsome])
  have hjoint : (fun item : Observed × Nat =>
      (item.1.unread.map fun failure => (item.2, failure)).or
        ((item.1.unparsed sha256 build entry).map fun failure => (item.2, failure))) =
      fun item => (item.1.failed sha256 build entry).map fun failure => (item.2, failure) := by
    funext item
    unfold Observed.failed
    cases item.1.unread <;> rfl
  rw [hjoint] at hperm
  rw [Sequence.insertionSort_eq_of_perm (·.1) hperm (Sequence.pairwise_filterMap_zipIdx _ _ _),
    List.map_filterMap,
    ← Sequence.filterMap_zipIdx (Observed.failed sha256 build entry) observed 0]
  congr 1
  funext item
  cases item.1.failed sha256 build entry <;> rfl

/-- The planned files with their walk positions. -/
def planned (observed : List Observed) : List (Extract × Nat) :=
  observed.zipIdx.filterMap fun item =>
    (item.1.extracted sha256 entry).map fun planned => (planned, item.2)

theorem map_fst_planned (observed : List Observed) :
    (planned sha256 entry observed).map Prod.fst =
      observed.filterMap (Observed.extracted sha256 entry) := by
  rw [planned, List.map_filterMap,
    ← Sequence.filterMap_zipIdx (Observed.extracted sha256 entry) observed 0]
  simp [Function.comp_def]

theorem map_snd_planned (observed : List Observed) :
    (planned sha256 entry observed).map Prod.snd =
      observed.zipIdx.filterMap fun item => (item.1.extracted sha256 entry).map fun _ => item.2 := by
  simp [planned, List.map_filterMap, Function.comp_def]

theorem filterMap_planned {β : Type} (select : Extract → Option β) (observed : List Observed) :
    (planned sha256 entry observed).filterMap (fun item => select item.1) =
      observed.filterMap fun file => (file.extracted sha256 entry).bind select := by
  rw [planned, List.filterMap_filterMap,
    ← Sequence.filterMap_zipIdx (fun file => (file.extracted sha256 entry).bind select) observed 0]
  congr 1
  funext item
  cases item.1.extracted sha256 entry <;> rfl

theorem filterMap_planned_position {β : Type} (select : Extract → Option β)
    (observed : List Observed) :
    (planned sha256 entry observed).filterMap
        (fun item => (select item.1).map fun value => (item.2, value)) =
      observed.zipIdx.filterMap fun item =>
        ((item.1.extracted sha256 entry).bind select).map fun value => (item.2, value) := by
  rw [planned, List.filterMap_filterMap]
  congr 1
  funext item
  cases item.1.extracted sha256 entry <;> rfl

theorem settle_eq {plan : Plan} {items : List (Extract × Nat)}
    (hextract : plan.extract = items.map Prod.fst)
    (hpositions : plan.positions = items.map Prod.snd) :
    ∃ settled, settle P.display plan (plan.extract.map build.parsed) = some settled ∧
      settled.rows.Perm (items.filterMap fun item => item.1.row build.parsed) ∧
      settled.failures = ((plan.failures ++ items.filterMap fun item =>
        (item.1.failure P.display build.parsed).map fun failure =>
          (item.2, failure)).insertionSort (fun a b => a.1 ≤ b.1)).map (·.2) ∧
      settled.skips = plan.skips ∧ settled.reused = plan.reused ∧
      ∀ path, path ∈ settled.delete ↔ path ∈ plan.recorded ∧
        ¬ ((path ∈ plan.seen ∧ ∀ failure ∈ items.filterMap fun item =>
            item.1.failure P.display build.parsed, failure.path ≠ path) ∧
          path ∉ settled.rows.map (·.file.path)) := by
  unfold settle
  rw [if_pos (by simp)]
  simp only [hextract, hpositions, Sequence.zip_zip_map, List.foldl_map, joined_eq,
    List.nil_append]
  refine ⟨_, rfl, List.perm_insertionSort _ _, rfl, rfl, rfl, fun path => ?_⟩
  rw [List.mem_filter]
  refine and_congr_right fun _ => ?_
  rw [← mem_foldl_erase]
  simp only [Bool.or_eq_true, Bool.not_eq_true', TreeSet.contains_ofList, List.contains_iff_mem,
    ← TreeSet.contains_iff_mem, Bool.eq_false_iff]
  tauto

theorem settled_settles (builds : Bytes → Build P) (run : Run) (db : Database) :
    ∃ settled, run.settled sha256 builds db = some settled ∧
      Settles sha256 (builds run.analysis) (run.stored db) run.observed
        (loadPrevious db).entries.keys settled := by
  have hplan := considered_eq sha256 (run.stored db) run.observed.zipIdx
    { recorded := (loadPrevious db).entries.keys }
  have hextract : (run.plan sha256 db).extract =
      (planned sha256 (run.stored db) run.observed).map Prod.fst := by
    rw [map_fst_planned]
    exact (congrArg Plan.extract hplan).trans (Sequence.filterMap_zipIdx _ _ 0)
  have hpositions : (run.plan sha256 db).positions =
      (planned sha256 (run.stored db) run.observed).map Prod.snd := by
    rw [map_snd_planned]
    exact congrArg Plan.positions hplan
  obtain ⟨settled, hsettled, hrows, hfailures, hskips, hreused, hdelete⟩ :=
    settle_eq (builds run.analysis) hextract hpositions
  refine ⟨settled, hsettled, ?_, ?_, ?_, ?_, ?_⟩
  · rwa [filterMap_planned sha256 (run.stored db) fun planned => planned.row _] at hrows
  · rw [hfailures, filterMap_planned_position sha256 (run.stored db) fun planned =>
      planned.failure P.display _, ← failures_sorted]
    exact congrArg (fun failures => List.map _ (List.insertionSort _ (failures ++ _)))
      (congrArg Plan.failures hplan)
  · rw [hskips]
    exact (congrArg Plan.skips hplan).trans (Sequence.filterMap_zipIdx _ _ 0)
  · rw [hreused]
    have hcount := List.countP_map (p := Observed.isReused sha256 (run.stored db))
      (f := Prod.fst) (l := run.observed.zipIdx)
    rw [List.zipIdx_map_fst] at hcount
    exact (congrArg Plan.reused hplan).trans ((Nat.zero_add _).trans hcount.symm)
  · intro path
    have hseen : path ∈ (run.plan sha256 db).seen ↔
        ∃ file ∈ run.observed, file.whole.map (·.path) = some path := by
      have h := congrArg Plan.seen hplan
      rw [Sequence.filterMap_zipIdx fun file : Observed => file.whole.map (·.path)] at h
      refine (iff_of_eq (congrArg (path ∈ ·) h)).trans ?_
      simp
    rw [hdelete, hseen, filterMap_planned sha256 (run.stored db) fun planned =>
      planned.failure P.display _]
    refine and_congr (iff_of_eq (congrArg (path ∈ ·) (congrArg Plan.recorded hplan)))
      (not_congr (and_congr_left' (and_congr_right' ?_)))
    simp only [List.mem_filterMap]
    exact ⟨fun h file hfile failure hfailure => h failure ⟨file, hfile, hfailure⟩,
      fun h failure ⟨file, hfile, hfailure⟩ => h file hfile failure hfailure⟩

end Settles

end Agentless.Store
