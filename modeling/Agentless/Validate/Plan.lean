import Agentless.App.TestConfig
import Agentless.Json.Format
import Agentless.Library.Fallible
import Agentless.Patch.Keys

/-!
# Planning a validation

Each candidate's edits are read, guarded and normalized against HEAD. The candidates that can be
scheduled are grouped by the exact files they produce, so that one member of a group is executed
for all of it.
-/

namespace Agentless.Validate

open Text Syntax Patch Json

structure Candidate where
  id : Text
  index : Nat
  text : Text
deriving DecidableEq, Repr

/-- A call that SIGINT stopped, or another failure. -/
inductive Error where
  | callStopped (message : Text)
  | operationFailed (message : Text)
  | refused (message : Text)
deriving DecidableEq, Repr

def isStopped : Error → Bool
  | .callStopped _ => true
  | _ => false

def stopped : Error :=
  .callStopped "validate was interrupted by SIGINT; no verdicts were written".toList

/-- One candidate for each file, its stem the id. Each file comes with its stem, its name and what
reading it gives, and two files that share a stem are refused. -/
def readAll (quoted : Text → Text) :
    Nat → List (Text × Text) → List (Text × Text × Except Error Text) → Except Error (List Candidate)
  | _, _, [] => .ok []
  | index, seen, (id, name, text) :: files =>
    match seen.lookup id with
    | some first =>
      .error (.operationFailed ("two candidates share the id ".toList ++ quoted id ++ ": ".toList ++
        first ++ " and ".toList ++ name ++
        ". Candidate ids come from the filename stem and must be unique.".toList))
    | none => do
      let text ← text
      let candidates ← readAll quoted (index + 1) ((id, name) :: seen) files
      return ⟨id, index, text⟩ :: candidates

/-! ## Records -/

inductive ApplyStatus where
  | ok
  | failed
  | notEvaluated
deriving DecidableEq, Repr

inductive RunStatus where
  | passed
  | failed
  | timeout
  | error
deriving DecidableEq, Repr

/-- The outcome of one test command, with its duration in thousandths of a second. -/
structure RunResult where
  status : RunStatus
  exitCode : Option Int
  duration : Nat
  stdoutTail : Text
  stderrTail : Text
deriving DecidableEq, Repr

def RunResult.passed (run : RunResult) : Bool := run.status = .passed

inductive Verdict where
  | passed
  | failed
  | timeout
  | error
  | notEvaluated
deriving DecidableEq, Repr

def Verdict.of : RunStatus → Verdict
  | .passed => .passed
  | .failed => .failed
  | .timeout => .timeout
  | .error => .error

/-- Everything one candidate produced, including why it produced nothing. -/
structure CandidateVerdict where
  id : Text
  index : Nat
  applyStatus : ApplyStatus
  applyReasons : List Text
  equivalenceKey : Option Text
  regression : Verdict
  reproduction : Option Verdict
  duration : Nat
  regressionRun : Option RunResult
  reproductionRun : Option RunResult
  budgetTruncated : Bool
  executionGroup : Option Text
  executedAs : Option Text
deriving DecidableEq, Repr

/-! ## Candidates that were not measured -/

def unmeasured (candidate : Candidate) (applyStatus : ApplyStatus) (applyReasons : List Text)
    (duration : Nat) : CandidateVerdict where
  id := candidate.id
  index := candidate.index
  applyStatus := applyStatus
  applyReasons := applyReasons
  equivalenceKey := none
  regression := .notEvaluated
  reproduction := none
  duration := duration
  regressionRun := none
  reproductionRun := none
  budgetTruncated := false
  executionGroup := none
  executedAs := none

def applyFailed (candidate : Candidate) (reasons : List Text) (duration : Nat) : CandidateVerdict :=
  unmeasured candidate .failed reasons duration

/-- The patch applied, so only the regression half was not evaluated. -/
def appliedButUnmeasured (candidate : Candidate) (key : Option Text) (budget : Text)
    (duration : Nat) : CandidateVerdict :=
  { unmeasured candidate .ok ["applied, then not evaluated: the run's ".toList ++ budget ++
      "s budget expired".toList] duration with
    equivalenceKey := key
    budgetTruncated := true }

def notEvaluated (candidate : Candidate) : CandidateVerdict :=
  unmeasured candidate .notEvaluated
    ["not evaluated: the baseline test run was UNVERIFIED".toList] 0

def deadlineExpired (candidate : Candidate) (budget : Text) : CandidateVerdict :=
  unmeasured candidate .notEvaluated ["not evaluated: the run's ".toList ++ budget ++
    "s budget expired before this candidate".toList] 0

/-! ## Plans -/

/-- One candidate normalized against HEAD before any command is scheduled. -/
structure Plan where
  candidate : Candidate
  edits : List Edit
  equivalenceKey : Option Text
  executionKey : List (Text × Text)
  executionGroup : Text
deriving DecidableEq, Repr

inductive Planning where
  | scheduled (plan : Plan)
  | refused (reasons : List Text)
deriving DecidableEq, Repr

def editStatusText : EditStatus → Text
  | .applied => "applied".toList
  | .notFound => "not_found".toList
  | .ambiguous => "ambiguous".toList
  | .noSuchFile => "no_such_file".toList
  | .unreadable => "unreadable".toList
  | .noAnchor => "no_anchor".toList

/-- Every edit that was not applied as one reason line. -/
def reasons (result : ApplyResult) : List Text :=
  (result.outcomes.filter (·.status ≠ .applied)).map fun outcome =>
    "block ".toList ++ shownNumber outcome.edit.index ++ " (".toList ++ outcome.edit.path ++
      ") ".toList ++ editStatusText outcome.status ++ ": ".toList ++ outcome.reason

def testConfigReason (paths : List Text) : Text :=
  "refusing to apply edits to ".toList ++ ", ".toList.intercalate paths ++
    (": those files name what the test command runs, so the candidate would be choosing how it " ++
      "is judged. Opt in with --allow-test-config-edits.").toList

structure ParseResult where
  edits : List Edit
  errors : List BlockError
deriving DecidableEq, Repr

/-- What the reader of edits, the root, HEAD, the parsers and the hash answer. -/
structure Repo where
  loadEdits : Text → Except Text ParseResult
  canonical : List Edit → Except Error (List Edit)
  contents : Text → Option Text
  tokens : Language → Text → Except Text Text
  sha256 : Bytes → Bytes
  quoted : Text → Text
  fromPath : Text → Option Language

def errorReason (error : BlockError) : Text :=
  let path := match error.path with
    | some path => if path = [] then "no path".toList else path
    | none => "no path".toList
  "block ".toList ++ shownNumber error.index ++ " (".toList ++ path ++ "): ".toList ++ error.reason

section Planning

variable (repo : Repo)

/-- Every refusal comes before a worktree is written. -/
def candidateEdits (text : Text) (allowTestConfigEdits : Bool) : Except (List Text) (List Edit) :=
  match repo.loadEdits text with
  | .error message => .error [message]
  | .ok parsed =>
    if parsed.errors ≠ [] then .error (parsed.errors.map errorReason)
    else if parsed.edits = [] then .error ["the candidate contains no edits".toList]
    else
      let rewritten := App.testConfigPaths (parsed.edits.map Edit.path)
      if !allowTestConfigEdits && rewritten ≠ [] then .error [testConfigReason rewritten]
      else .ok parsed.edits

/-- The hash of the exact changed paths and contents. -/
def fingerprint (executionKey : List (Text × Text)) : Text :=
  let document := ((JsonFormatter.new .packed).run (SerdeValue.array (executionKey.map fun entry =>
    .array [.string entry.1, .string entry.2])).events).1
  "sha256:".toList ++ hexSha256 repo.sha256 document

def sortedContents (newContents : List (Text × Text)) : List (Text × Text) :=
  newContents.insertionSort fun x y => toLex x ≤ toLex y

def plan (candidate : Candidate) (edits : List Edit) (normalized : NormalizeReport) : Plan where
  candidate := candidate
  edits := edits
  equivalenceKey := if sortedContents normalized.result.newContents = [] then none
    else some normalized.key
  executionKey := sortedContents normalized.result.newContents
  executionGroup := fingerprint repo (sortedContents normalized.result.newContents)

def normalized (edits : List Edit) : Except Error NormalizeReport := do
  let canonical ← repo.canonical edits
  (normalizePatch repo.tokens repo.sha256 repo.quoted repo.fromPath repo.contents canonical).mapError
    .operationFailed

def planning (allowTestConfigEdits : Bool) (candidate : Candidate) : Except Error Planning :=
  match candidateEdits repo candidate.text allowTestConfigEdits with
  | .error reasons => .ok (.refused reasons)
  | .ok edits => do
    let report ← normalized repo edits
    if report.result.outcomes.all (·.status = .applied) then
      return .scheduled (plan repo candidate edits report)
    else return .refused (reasons report.result)

/-- The plans, and the verdicts of the candidates that can never apply. -/
def planned (allowTestConfigEdits : Bool) (elapsed : Candidate → Nat) :
    List Candidate → Except Error (List Plan × List CandidateVerdict)
  | [] => .ok ([], [])
  | candidate :: candidates => do
    let first ← planning repo allowTestConfigEdits candidate
    let (plans, failures) ← planned allowTestConfigEdits elapsed candidates
    match first with
    | .scheduled plan => return (plan :: plans, failures)
    | .refused reasons =>
      return (plans, applyFailed candidate reasons (elapsed candidate) :: failures)

end Planning

/-! ## Groups -/

/-- The slot of each exact result seen so far, and the members of each slot. -/
structure Grouping where
  slots : List (List (Text × Text) × Nat) := []
  groups : List (List Nat) := []
deriving DecidableEq, Repr

def Grouping.add (grouping : Grouping) (entry : Plan × Nat) : Grouping :=
  match grouping.slots.lookup entry.1.executionKey with
  | some slot => { grouping with groups := grouping.groups.modify slot (· ++ [entry.2]) }
  | none =>
    ⟨(entry.1.executionKey, grouping.groups.length) :: grouping.slots, grouping.groups ++ [[entry.2]]⟩

/-- The plans grouped by exact result, each group and each member in first appearance. -/
def executionGroups (plans : List Plan) : List (List Nat) :=
  (plans.zipIdx.foldl Grouping.add {}).groups

/-- One representative's execution as the record of `plan`. The planned key travels only with a
verdict whose patch applied, and only the representative keeps the duration and the runs. -/
def shareExecution (verdict : CandidateVerdict) (plan : Plan) (representative : Text) :
    CandidateVerdict :=
  let key := if verdict.applyStatus = .ok then plan.equivalenceKey else verdict.equivalenceKey
  let shared := { verdict with
    id := plan.candidate.id
    index := plan.candidate.index
    equivalenceKey := key
    executionGroup := some plan.executionGroup
    executedAs := some representative }
  if plan.candidate.id = representative then shared
  else { shared with duration := 0, regressionRun := none, reproductionRun := none }

/-- What a shared record keeps of the execution and takes from the plan. -/
theorem shareExecution_fields (verdict : CandidateVerdict) (plan : Plan) (representative : Text) :
    (shareExecution verdict plan representative).id = plan.candidate.id ∧
      (shareExecution verdict plan representative).index = plan.candidate.index ∧
      (shareExecution verdict plan representative).executedAs = some representative ∧
      (shareExecution verdict plan representative).applyStatus = verdict.applyStatus ∧
      (shareExecution verdict plan representative).regression = verdict.regression ∧
      (shareExecution verdict plan representative).reproduction = verdict.reproduction ∧
      (shareExecution verdict plan representative).equivalenceKey =
        if verdict.applyStatus = .ok then plan.equivalenceKey else verdict.equivalenceKey := by
  unfold shareExecution
  dsimp only
  split <;> exact ⟨rfl, rfl, rfl, rfl, rfl, rfl, rfl⟩

/-! ## Candidates that were read -/

/-- Each candidate has an id of its own and its place as its index. -/
structure Loaded (candidates : List Candidate) : Prop where
  ids : (candidates.map Candidate.id).Nodup
  indices : candidates.map Candidate.index = List.range candidates.length

theorem readAll_ok {quoted : Text → Text} {index : Nat} {seen : List (Text × Text)}
    {files : List (Text × Text × Except Error Text)} {candidates : List Candidate}
    (h : readAll quoted index seen files = .ok candidates) :
    (candidates.map Candidate.id).Nodup ∧
      candidates.map Candidate.index = List.range' index candidates.length ∧
      ∀ candidate ∈ candidates, seen.lookup candidate.id = none := by
  induction files generalizing index seen candidates with
  | nil =>
    obtain rfl := Except.ok.inj h
    simp
  | cons file files ih =>
    obtain ⟨id, name, text⟩ := file
    unfold readAll at h
    cases hseen : seen.lookup id with
    | some first => simp [hseen] at h
    | none =>
      rw [hseen] at h
      obtain ⟨text, -, hrest⟩ := Except.bind_eq_ok_iff.mp h
      obtain ⟨rest, hread, hresult⟩ := Except.bind_eq_ok_iff.mp hrest
      obtain rfl := Except.ok.inj hresult
      obtain ⟨hids, hindices, hunseen⟩ := ih hread
      have hother : ∀ candidate ∈ rest, candidate.id ≠ id ∧ seen.lookup candidate.id = none := by
        intro candidate hcandidate
        have hlookup := hunseen candidate hcandidate
        rw [Assoc.lookup_cons_eq] at hlookup
        split_ifs at hlookup with hid
        exact ⟨hid, hlookup⟩
      refine ⟨?_, ?_, ?_⟩
      · rw [List.map_cons, List.nodup_cons]
        refine ⟨fun hmem => ?_, hids⟩
        obtain ⟨candidate, hcandidate, hid⟩ := List.mem_map.mp hmem
        exact (hother candidate hcandidate).1 hid
      · rw [List.map_cons, hindices, List.length_cons, List.range'_succ]
      · intro candidate hcandidate
        rcases List.mem_cons.mp hcandidate with rfl | hcandidate
        · exact hseen
        · exact (hother candidate hcandidate).2

theorem readAll_loaded {quoted : Text → Text} {files : List (Text × Text × Except Error Text)}
    {candidates : List Candidate} (h : readAll quoted 0 [] files = .ok candidates) :
    Loaded candidates := by
  obtain ⟨hids, hindices, -⟩ := readAll_ok h
  exact ⟨hids, by rw [hindices, List.range_eq_range']⟩

/-! ## Equal results -/

theorem sortedContents_eq_iff_perm {contents contents' : List (Text × Text)} :
    sortedContents contents = sortedContents contents' ↔ contents.Perm contents' := by
  have : Std.Total (fun x y : Text × Text => toLex x ≤ toLex y) := ⟨fun x y => le_total (toLex x) (toLex y)⟩
  have : IsTrans (Text × Text) (fun x y => toLex x ≤ toLex y) := ⟨fun _ _ _ => le_trans⟩
  have hperm : ∀ contents, (sortedContents contents).Perm contents := fun contents =>
    List.perm_insertionSort _ contents
  constructor
  · intro h
    exact (hperm contents).symm.trans ((List.Perm.of_eq h).trans (hperm contents'))
  · intro h
    refine List.Perm.eq_of_pairwise ?_ (List.pairwise_insertionSort _ _)
      (List.pairwise_insertionSort _ _) ((hperm contents).trans (h.trans (hperm contents').symm))
    intro x y _ _ hxy hyx
    exact toLex.injective (le_antisymm hxy hyx)

section Equal

variable {repo : Repo} {edits edits' : List Edit} {report report' : NormalizeReport}

theorem normalized_ok (h : normalized repo edits = .ok report) :
    ∃ canonical, normalizePatch repo.tokens repo.sha256 repo.quoted repo.fromPath repo.contents
      canonical = .ok report := by
  obtain ⟨canonical, -, hreport⟩ := Except.bind_eq_ok_iff.mp h
  refine ⟨canonical, ?_⟩
  cases hnormalize : normalizePatch repo.tokens repo.sha256 repo.quoted repo.fromPath repo.contents
      canonical with
  | error message => simp [hnormalize, Except.mapError] at hreport
  | ok found => simpa [hnormalize, Except.mapError] using hreport

theorem nodup_normalized (h : normalized repo edits = .ok report) :
    (report.result.newContents.map Prod.fst).Nodup := by
  obtain ⟨canonical, hreport⟩ := normalized_ok h
  obtain ⟨fileKeys, -, hresult⟩ := Except.bind_eq_ok_iff.mp hreport
  obtain rfl := Except.ok.inj hresult
  exact nodup_newContents _ _ _

/-- The exact results are equal when the changed files are, as maps. -/
theorem sortedContents_eq_iff (h : normalized repo edits = .ok report)
    (h' : normalized repo edits' = .ok report') :
    sortedContents report.result.newContents = sortedContents report'.result.newContents ↔
      ∀ path, report.result.newContents.lookup path = report'.result.newContents.lookup path := by
  rw [sortedContents_eq_iff_perm, Assoc.perm_iff_lookup (nodup_normalized h) (nodup_normalized h')]

/-- The key depends on the changed files alone. -/
theorem key_eq_of_lookup_eq (h : normalized repo edits = .ok report)
    (h' : normalized repo edits' = .ok report')
    (hsame : ∀ path, report.result.newContents.lookup path = report'.result.newContents.lookup path) :
    report.key = report'.key := by
  obtain ⟨canonical, hreport⟩ := normalized_ok h
  obtain ⟨canonical', hreport'⟩ := normalized_ok h'
  obtain ⟨hkey, hfiles⟩ := normalizePatch_ok hreport
  obtain ⟨hkey', hfiles'⟩ := normalizePatch_ok hreport'
  have hequal : ∀ path : Text, report.fileKeys[path]? = report'.fileKeys[path]? := by
    intro path
    cases hnew : report.result.newContents.lookup path with
    | none => rw [(hfiles path).1 hnew, (hfiles' path).1 (hsame path ▸ hnew)]
    | some new =>
      obtain ⟨key, hfile, hheld⟩ := (hfiles path).2 new hnew
      obtain ⟨key', hfile', hheld'⟩ := (hfiles' path).2 new (hsame path ▸ hnew)
      rw [hheld, hheld', Except.ok.inj (hfile.symm.trans hfile')]
  rw [hkey, hkey']
  simp only [equivalenceKey, (Std.TreeMap.Equiv.of_forall_constGet?_eq hequal).toList_eq]

end Equal

/-! ## What a planning holds -/

section Planned

variable (repo : Repo) (allowTestConfigEdits : Bool) (elapsed : Candidate → Nat)

def planOf (candidate : Candidate) : Option Plan :=
  match planning repo allowTestConfigEdits candidate with
  | .ok (.scheduled plan) => some plan
  | _ => none

def failureOf (candidate : Candidate) : Option CandidateVerdict :=
  match planning repo allowTestConfigEdits candidate with
  | .ok (.refused reasons) => some (applyFailed candidate reasons (elapsed candidate))
  | _ => none

/-- The files that a candidate changes and their contents, when it can be scheduled. -/
def changedFiles (candidate : Candidate) : Option (Text → Option Text) :=
  match candidateEdits repo candidate.text allowTestConfigEdits with
  | .error _ => none
  | .ok edits =>
    match normalized repo edits with
    | .error _ => none
    | .ok report =>
      if report.result.outcomes.all (·.status = .applied) then
        some fun path => report.result.newContents.lookup path
      else none

variable {repo allowTestConfigEdits elapsed}

/-- Every candidate of a planning is scheduled or refused, in the order of the candidates. -/
theorem planned_ok {candidates : List Candidate} {plans : List Plan}
    {failures : List CandidateVerdict}
    (h : planned repo allowTestConfigEdits elapsed candidates = .ok (plans, failures)) :
    plans = candidates.filterMap (planOf repo allowTestConfigEdits) ∧
      failures = candidates.filterMap (failureOf repo allowTestConfigEdits elapsed) ∧
      ∀ candidate ∈ candidates, (planOf repo allowTestConfigEdits candidate).isSome ≠
        (failureOf repo allowTestConfigEdits elapsed candidate).isSome := by
  induction candidates generalizing plans failures with
  | nil =>
    obtain ⟨rfl, rfl⟩ := Prod.mk.inj (Except.ok.inj h)
    simp
  | cons candidate candidates ih =>
    obtain ⟨first, hfirst, hrest⟩ := Except.bind_eq_ok_iff.mp h
    obtain ⟨⟨plans', failures'⟩, hplanned, hresult⟩ := Except.bind_eq_ok_iff.mp hrest
    obtain ⟨rfl, rfl, hcandidates⟩ := ih hplanned
    cases first with
    | scheduled plan =>
      obtain ⟨rfl, rfl⟩ := Prod.mk.inj (Except.ok.inj hresult)
      have hplan : planOf repo allowTestConfigEdits candidate = some plan := by
        rw [planOf, hfirst]
      have hfailure : failureOf repo allowTestConfigEdits elapsed candidate = none := by
        rw [failureOf, hfirst]
      simpa [List.filterMap_cons, hplan, hfailure] using hcandidates
    | refused reasons =>
      obtain ⟨rfl, rfl⟩ := Prod.mk.inj (Except.ok.inj hresult)
      have hplan : planOf repo allowTestConfigEdits candidate = none := by
        rw [planOf, hfirst]
      have hfailure : failureOf repo allowTestConfigEdits elapsed candidate =
          some (applyFailed candidate reasons (elapsed candidate)) := by
        rw [failureOf, hfirst]
      simpa [List.filterMap_cons, hplan, hfailure] using hcandidates

theorem planOf_eq_some {candidate : Candidate} {found : Plan}
    (h : planOf repo allowTestConfigEdits candidate = some found) :
    ∃ edits report, normalized repo edits = .ok report ∧ found = plan repo candidate edits report ∧
      changedFiles repo allowTestConfigEdits candidate =
        some fun path => report.result.newContents.lookup path := by
  unfold planOf planning at h
  unfold changedFiles
  cases hedits : candidateEdits repo candidate.text allowTestConfigEdits with
  | error reasons => simp [hedits] at h
  | ok edits =>
    cases hreport : normalized repo edits with
    | error error => simp [hedits, hreport, bind, Except.bind] at h
    | ok report =>
      refine ⟨edits, report, hreport, ?_⟩
      simp only [hedits, hreport, bind, Except.bind, pure, Except.pure] at h ⊢
      split_ifs at h ⊢ with hall
      exact ⟨(Option.some.inj h).symm, rfl⟩

theorem changedFiles_isSome {candidate : Candidate} :
    (changedFiles repo allowTestConfigEdits candidate).isSome =
      (planOf repo allowTestConfigEdits candidate).isSome := by
  unfold planOf planning changedFiles
  cases hedits : candidateEdits repo candidate.text allowTestConfigEdits with
  | error reasons => rfl
  | ok edits =>
    cases hreport : normalized repo edits with
    | error error => simp only [hreport, bind, Except.bind]; rfl
    | ok report =>
      simp only [hreport, bind, Except.bind, pure, Except.pure]
      split_ifs <;> rfl

variable {candidate candidate' : Candidate} {found found' : Plan}

theorem candidate_of_planOf (h : planOf repo allowTestConfigEdits candidate = some found) :
    found.candidate = candidate := by
  obtain ⟨edits, report, -, rfl, -⟩ := planOf_eq_some h
  rfl

/-- Two plans have one exact result when their candidates change the same files to the same
contents. -/
theorem executionKey_eq_iff (h : planOf repo allowTestConfigEdits candidate = some found)
    (h' : planOf repo allowTestConfigEdits candidate' = some found') :
    found.executionKey = found'.executionKey ↔
      changedFiles repo allowTestConfigEdits candidate =
        changedFiles repo allowTestConfigEdits candidate' := by
  obtain ⟨edits, report, hreport, rfl, hchanged⟩ := planOf_eq_some h
  obtain ⟨edits', report', hreport', rfl, hchanged'⟩ := planOf_eq_some h'
  rw [hchanged, hchanged', Option.some_inj, funext_iff]
  exact sortedContents_eq_iff hreport hreport'

theorem equivalenceKey_eq_of_executionKey_eq
    (h : planOf repo allowTestConfigEdits candidate = some found)
    (h' : planOf repo allowTestConfigEdits candidate' = some found')
    (hkey : found.executionKey = found'.executionKey) :
    found.equivalenceKey = found'.equivalenceKey := by
  obtain ⟨edits, report, hreport, rfl, -⟩ := planOf_eq_some h
  obtain ⟨edits', report', hreport', rfl, -⟩ := planOf_eq_some h'
  have hsame : sortedContents report.result.newContents = sortedContents report'.result.newContents :=
    hkey
  simp only [plan, hsame, key_eq_of_lookup_eq hreport hreport'
    ((sortedContents_eq_iff hreport hreport').mp hsame)]

end Planned

/-! ## What the groups hold -/

/-- The groups hold the positions of `plans`, each once, and two positions share a group when
their plans have one exact result. -/
structure Grouped (plans : List Plan) (grouping : Grouping) : Prop where
  positions : grouping.groups.flatten.Perm (List.range plans.length)
  nonempty : [] ∉ grouping.groups
  held : ∀ {slot : Nat} {group : List Nat} {position : Nat} {plan : Plan},
    grouping.groups[slot]? = some group → position ∈ group → plans[position]? = some plan →
      grouping.slots.lookup plan.executionKey = some slot
  below : ∀ {key : List (Text × Text)} {slot : Nat},
    grouping.slots.lookup key = some slot → slot < grouping.groups.length
  inj : ∀ {key key' : List (Text × Text)} {slot : Nat}, grouping.slots.lookup key = some slot →
    grouping.slots.lookup key' = some slot → key = key'

theorem flatten_modify_perm (groups : List (List Nat)) {slot : Nat} (h : slot < groups.length)
    (position : Nat) :
    (groups.modify slot (· ++ [position])).flatten.Perm (groups.flatten ++ [position]) := by
  induction groups generalizing slot with
  | nil => simp at h
  | cons group groups ih =>
    cases slot with
    | zero =>
      simp only [List.modify_zero_cons, List.flatten_cons, List.append_assoc]
      exact List.perm_append_comm.append_left group
    | succ slot =>
      simp only [List.modify_succ_cons, List.flatten_cons, List.append_assoc]
      exact (ih (Nat.lt_of_succ_lt_succ h)).append_left group

theorem Grouped.position_lt {plans : List Plan} {grouping : Grouping} (h : Grouped plans grouping)
    {slot position : Nat} {group : List Nat} (hgroup : grouping.groups[slot]? = some group)
    (hmem : position ∈ group) : position < plans.length := by
  have := h.positions.mem_iff.mp (List.mem_flatten_of_mem (List.mem_of_getElem? hgroup) hmem)
  simpa using this

/-- What an earlier member of a group says of its plan holds after one more plan. -/
theorem Grouped.held_concat {plans : List Plan} {grouping : Grouping} (h : Grouped plans grouping)
    {slot position : Nat} {group : List Nat} {plan last : Plan}
    (hgroup : grouping.groups[slot]? = some group) (hmem : position ∈ group)
    (hplan : (plans ++ [last])[position]? = some plan) :
    grouping.slots.lookup plan.executionKey = some slot := by
  rw [List.getElem?_append_left (h.position_lt hgroup hmem)] at hplan
  exact h.held hgroup hmem hplan

theorem Grouped.add {plans : List Plan} {grouping : Grouping} (h : Grouped plans grouping)
    (plan : Plan) : Grouped (plans ++ [plan]) (grouping.add (plan, plans.length)) := by
  have hrange : List.range (plans ++ [plan]).length = List.range plans.length ++ [plans.length] := by
    rw [List.length_append, List.length_singleton, List.range_succ]
  have hlast : ∀ {other}, (plans ++ [plan])[plans.length]? = some other → plan = other := by simp
  unfold Grouping.add
  cases hslot : grouping.slots.lookup plan.executionKey with
  | some slot =>
    have hlt := h.below hslot
    refine ⟨?_, ?_, ?_, ?_, h.inj⟩
    · rw [hrange]
      exact (flatten_modify_perm _ hlt _).trans (h.positions.append_right _)
    · intro hmem
      obtain ⟨at_, hat⟩ := List.mem_iff_getElem?.mp hmem
      rw [List.getElem?_modify] at hat
      obtain ⟨group, hgroup, hempty⟩ := Option.map_eq_some_iff.mp hat
      split_ifs at hempty
      · simp at hempty
      · exact h.nonempty (hempty ▸ List.mem_of_getElem? hgroup)
    · intro slot' group' position other hgroup' hmem hother
      rw [List.getElem?_modify] at hgroup'
      obtain ⟨group, hgroup, rfl⟩ := Option.map_eq_some_iff.mp hgroup'
      split_ifs at hmem with hsame
      · rcases List.mem_append.mp hmem with hmem | hmem
        · exact h.held_concat hgroup hmem hother
        · rw [List.mem_singleton.mp hmem] at hother
          rw [← hlast hother, ← hsame, hslot]
      · exact h.held_concat hgroup hmem hother
    · intro key slot' hkey
      rw [List.length_modify]
      exact h.below hkey
  | none =>
    have hfresh : ∀ {key slot'}, grouping.slots.lookup key = some slot' →
        key ≠ plan.executionKey ∧ slot' ≠ grouping.groups.length := by
      intro key slot' hkey
      refine ⟨fun heq => ?_, (h.below hkey).ne⟩
      rw [heq, hslot] at hkey
      cases hkey
    refine ⟨?_, ?_, ?_, ?_, ?_⟩
    · rw [hrange, List.flatten_append]
      simpa using h.positions.append_right _
    · simp [h.nonempty]
    · intro slot' group' position other hgroup' hmem hother
      rw [Assoc.lookup_cons_eq]
      by_cases hnew : slot' < grouping.groups.length
      · rw [List.getElem?_append_left hnew] at hgroup'
        have hheld := h.held_concat hgroup' hmem hother
        rw [if_neg (hfresh hheld).1, hheld]
      · rw [List.getElem?_append_right (Nat.le_of_not_lt hnew)] at hgroup'
        obtain ⟨hlength, hgroup⟩ := List.getElem?_eq_some_iff.mp hgroup'
        have hslot' : slot' = grouping.groups.length := by
          rw [List.length_singleton] at hlength
          omega
        subst hslot'
        obtain rfl : [plans.length] = group' := by simpa using hgroup
        rw [List.mem_singleton.mp hmem] at hother
        rw [if_pos (congrArg Plan.executionKey (hlast hother)).symm]
    · intro key slot' hkey
      rw [Assoc.lookup_cons_eq] at hkey
      rw [List.length_append, List.length_singleton]
      split_ifs at hkey
      · have := Option.some.inj hkey
        omega
      · exact Nat.lt_succ_of_lt (h.below hkey)
    · intro key key' slot' hkey hkey'
      rw [Assoc.lookup_cons_eq] at hkey hkey'
      split_ifs at hkey hkey' with hsame hsame' hsame'
      · rw [hsame, hsame']
      · exact absurd (Option.some.inj hkey).symm (hfresh hkey').2
      · exact absurd (Option.some.inj hkey').symm (hfresh hkey).2
      · exact h.inj hkey hkey'

/-- The groups of a list of plans, with the slot of each exact result. -/
theorem grouped_foldl (plans : List Plan) : Grouped plans (plans.zipIdx.foldl Grouping.add {}) := by
  induction plans using List.reverseRecOn with
  | nil => exact ⟨by simp, by simp, by simp, by simp, by simp⟩
  | append_singleton plans plan ih =>
    rw [List.zipIdx_append, List.foldl_append]
    simpa using ih.add plan

end Agentless.Validate
