import Agentless.Validate.Evaluate

/-!
# Every candidate has one verdict

The groups partition the plans and the answers come in representative order, so projecting each
execution onto its group gives one verdict for each candidate. A failure of any representative
leaves no report, and a SIGINT among the failures is the error, whichever came first.
-/

namespace Agentless.Validate

open Text Patch

/-! ## The answers together -/

/-- What the answers so far leave in a gathering. -/
structure Gathered (answers : List (Noted (Except Halt Evaluation))) (gathering : Gathering) :
    Prop where
  evaluations : gathering.evaluations = answers.filterMap (·.value.toOption)
  failed : gathering.failure = none ↔
    ∀ answer ∈ answers, ∀ error, answer.value ≠ .error (.failed error)
  stop : ∀ error, gathering.failure = some error → ∀ answer ∈ answers, ∀ other,
    answer.value = .error (.failed other) → isStopped other = true → isStopped error = true
  kept : ∀ error, gathering.failure = some error →
    ∃ answer ∈ answers, answer.value = .error (.failed error)
  skipped : gathering.skipped = false ↔ ∀ answer ∈ answers, answer.value ≠ .error .skipped

theorem isStopped_kept {first : Option Error} {found : Error}
    (h : isStopped found = true ∨ ∃ error, first = some error ∧ isStopped error = true) :
    isStopped (kept first found) = true := by
  cases first with
  | none => simpa [kept] using h
  | some first =>
    cases hfirst : isStopped first with
    | true => simp [kept, hfirst]
    | false =>
      have hfound : isStopped found = true := by simpa [hfirst] using h
      simp [kept, hfirst, hfound]

theorem kept_eq_or (first : Option Error) (found : Error) :
    first = some (kept first found) ∨ kept first found = found := by
  cases first with
  | none => exact .inr rfl
  | some first =>
    simp only [kept]
    split_ifs
    · exact .inl rfl
    · exact .inr rfl

theorem Gathered.add {answers : List (Noted (Except Halt Evaluation))} {gathering : Gathering}
    (h : Gathered answers gathering) (noted : Noted (Except Halt Evaluation)) :
    Gathered (answers ++ [noted]) (gathering.add noted) := by
  obtain ⟨value, diagnostics⟩ := noted
  obtain ⟨hevaluations, hfailed, hstop, hkept, hskipped⟩ := h
  have hkeeps : ∀ error, gathering.failure = some error →
      ∃ answer ∈ answers ++ [⟨value, diagnostics⟩], answer.value = .error (.failed error) := by
    intro error hfailure
    obtain ⟨answer, hanswer, hvalue⟩ := hkept error hfailure
    exact ⟨answer, List.mem_append_left _ hanswer, hvalue⟩
  cases value with
  | ok evaluation =>
    refine ⟨?_, ?_, ?_, hkeeps, ?_⟩
    · simp [Gathering.add, hevaluations, Except.toOption]
    · simpa [Gathering.add, or_imp, forall_and] using hfailed
    · simpa [Gathering.add, or_imp, forall_and] using hstop
    · simpa [Gathering.add, or_imp, forall_and] using hskipped
  | error halt =>
    cases halt with
    | skipped =>
      refine ⟨?_, ?_, ?_, hkeeps, ?_⟩
      · simp [Gathering.add, hevaluations, Except.toOption]
      · simpa [Gathering.add, or_imp, forall_and] using hfailed
      · simpa [Gathering.add, or_imp, forall_and] using hstop
      · simp [Gathering.add, or_imp, forall_and]
    | failed error =>
      refine ⟨?_, ?_, ?_, ?_, ?_⟩
      · simp [Gathering.add, hevaluations, Except.toOption]
      · simp [Gathering.add, or_imp, forall_and]
      · intro last hlast answer hanswer other hother hstopped
        obtain rfl : Validate.kept gathering.failure error = last := Option.some.inj hlast
        rcases List.mem_append.mp hanswer with hanswer | hanswer
        · cases hfailure : gathering.failure with
          | none => exact absurd hother (hfailed.mp hfailure answer hanswer other)
          | some first =>
            have hfirst := hstop first hfailure answer hanswer other hother hstopped
            exact isStopped_kept (.inr ⟨first, rfl, hfirst⟩)
        · rw [List.mem_singleton.mp hanswer] at hother
          obtain rfl : error = other := by simpa using hother
          exact isStopped_kept (.inl hstopped)
      · intro last hlast
        obtain rfl : Validate.kept gathering.failure error = last := Option.some.inj hlast
        obtain hfirst | hfound := kept_eq_or gathering.failure error
        · exact hkeeps _ hfirst
        · exact ⟨_, List.mem_append_right _ (List.mem_singleton_self _), by rw [hfound]⟩
      · simpa [Gathering.add, or_imp, forall_and] using hskipped

theorem gathered_foldl (answers : List (Noted (Except Halt Evaluation))) :
    Gathered answers (answers.foldl Gathering.add {}) := by
  induction answers using List.reverseRecOn with
  | nil => exact ⟨by simp, by simp, by simp, by simp, by simp⟩
  | append_singleton answers noted ih =>
    rw [List.foldl_append]
    exact ih.add noted

theorem gathered_ok {answers : List (Noted (Except Halt Evaluation))} {evaluations : List Evaluation}
    (h : (gathered answers).value = .ok evaluations) :
    answers.map Noted.value = evaluations.map .ok := by
  have hgathered := gathered_foldl answers
  unfold gathered at h
  cases hfailure : (answers.foldl Gathering.add {}).failure with
  | some error => simp [hfailure] at h
  | none =>
    cases hskipped : (answers.foldl Gathering.add {}).skipped with
    | true => simp [hfailure, hskipped] at h
    | false =>
      obtain rfl : (answers.foldl Gathering.add {}).evaluations = evaluations := by
        simpa [hfailure, hskipped] using h
      have hhalts : ∀ answer ∈ answers, ∃ evaluation, answer.value = .ok evaluation := by
        intro answer hanswer
        match hvalue : answer.value with
        | .ok evaluation => exact ⟨evaluation, rfl⟩
        | .error .skipped => exact absurd hvalue (hgathered.skipped.mp hskipped answer hanswer)
        | .error (.failed error) =>
          exact absurd hvalue (hgathered.failed.mp hfailure answer hanswer error)
      rw [hgathered.evaluations]
      clear h hgathered hfailure hskipped
      induction answers with
      | nil => rfl
      | cons answer answers ih =>
        obtain ⟨evaluation, hevaluation⟩ := hhalts answer List.mem_cons_self
        rw [List.map_cons, ih fun other hother => hhalts other (List.mem_cons_of_mem _ hother)]
        simp [hevaluation, Except.toOption]

theorem gathered_failed {answers : List (Noted (Except Halt Evaluation))}
    {answer : Noted (Except Halt Evaluation)} {error : Error} (hanswer : answer ∈ answers)
    (herror : answer.value = .error (.failed error)) :
    ∃ found, (gathered answers).value = .error found ∧ ∀ other ∈ answers, ∀ stop,
      other.value = .error (.failed stop) → isStopped stop = true → isStopped found = true := by
  have hgathered := gathered_foldl answers
  cases hfailure : (answers.foldl Gathering.add {}).failure with
  | none => exact absurd herror (hgathered.failed.mp hfailure answer hanswer error)
  | some found => exact ⟨found, by simp [gathered, hfailure], hgathered.stop found hfailure⟩

theorem gathered_error {answers : List (Noted (Except Halt Evaluation))} {found : Error}
    (h : (gathered answers).value = .error found) :
    (∃ answer ∈ answers, answer.value = .error (.failed found)) ∨
      (∀ answer ∈ answers, ∀ error, answer.value ≠ .error (.failed error)) ∧
        ∃ answer ∈ answers, answer.value = .error .skipped := by
  have hgathered := gathered_foldl answers
  unfold gathered at h
  cases hfailure : (answers.foldl Gathering.add {}).failure with
  | some error =>
    obtain rfl : error = found := by simpa [hfailure] using h
    exact .inl (hgathered.kept error hfailure)
  | none =>
    refine .inr ⟨hgathered.failed.mp hfailure, ?_⟩
    by_contra hnone
    push Not at hnone
    simp [hfailure, hgathered.skipped.mpr hnone] at h

/-! ## One verdict for each candidate -/

/-- The grouping of the plans, with the slot of each exact result. -/
def grouping (plans : List Plan) : Grouping := plans.zipIdx.foldl Grouping.add {}

theorem grouped (plans : List Plan) : Grouped plans (grouping plans) := grouped_foldl plans

/-- The evaluation in a slot, and the plan it was made for. -/
def executionAt (plans : List Plan) (evaluations : List Evaluation) (slot : Nat) :
    Option (Evaluation × Plan) := do
  let group ← (executionGroups plans)[slot]?
  let first ← representative plans group
  let evaluation ← evaluations[slot]?
  return (evaluation, first)

/-- The verdict that a plan shares. -/
def executedFor (plans : List Plan) (evaluations : List Evaluation) (plan : Plan) :
    Option CandidateVerdict := do
  let slot ← (grouping plans).slots.lookup plan.executionKey
  let (evaluation, first) ← executionAt plans evaluations slot
  return shareExecution evaluation.verdict plan first.candidate.id

section Shared

variable {plans : List Plan} {evaluations : List Evaluation}

theorem exists_representative {slot : Nat} {group : List Nat}
    (hgroup : (executionGroups plans)[slot]? = some group) :
    ∃ position first, group.head? = some position ∧ plans[position]? = some first ∧
      representative plans group = some first := by
  cases group with
  | nil => exact absurd (List.mem_of_getElem? hgroup) (grouped plans).nonempty
  | cons position group =>
    have hlt := (grouped plans).position_lt hgroup List.mem_cons_self
    exact ⟨position, plans[position], rfl, List.getElem?_eq_getElem hlt,
      List.getElem?_eq_getElem hlt⟩

/-- The records of a group are the verdicts that its members share. -/
theorem sharedGroup_eq {slot : Nat} {group : List Nat} {evaluation : Evaluation}
    (hgroup : (executionGroups plans)[slot]? = some group)
    (hevaluation : evaluations[slot]? = some evaluation) :
    sharedGroup plans group evaluation =
      group.filterMap fun position => plans[position]?.bind (executedFor plans evaluations) := by
  obtain ⟨position, first, -, -, hfirst⟩ := exists_representative hgroup
  rw [sharedGroup, hfirst]
  dsimp only
  rw [List.map_filterMap]
  refine List.filterMap_congr fun member hmember => ?_
  cases hplan : plans[member]? with
  | none => rfl
  | some plan =>
    have hslot := (grouped plans).held hgroup hmember hplan
    simp [executedFor, executionAt, hslot, hgroup, hfirst, hevaluation]

theorem flatMap_sharedGroup_perm (hlength : evaluations.length = (executionGroups plans).length) :
    (((executionGroups plans).zip evaluations).flatMap fun (group, evaluation) =>
      sharedGroup plans group evaluation).Perm (plans.filterMap (executedFor plans evaluations)) := by
  rw [Sequence.flatMap_zip_eq hlength fun slot group evaluation => sharedGroup_eq,
    ← Sequence.filterMap_range_getElem? _ plans]
  have hflatten : ((executionGroups plans).flatMap fun group => group.filterMap fun position =>
      plans[position]?.bind (executedFor plans evaluations)) =
        (executionGroups plans).flatten.filterMap fun position =>
          plans[position]?.bind (executedFor plans evaluations) := by
    rw [List.filterMap_flatten, List.flatMap_def]
  rw [hflatten]
  exact (grouped plans).positions.filterMap _

theorem executedFor_of_mem (hlength : evaluations.length = (executionGroups plans).length)
    {plan : Plan} (hplan : plan ∈ plans) :
    ∃ slot evaluation first, (grouping plans).slots.lookup plan.executionKey = some slot ∧
      executionAt plans evaluations slot = some (evaluation, first) ∧
      executedFor plans evaluations plan =
        some (shareExecution evaluation.verdict plan first.candidate.id) := by
  obtain ⟨position, hposition⟩ := List.mem_iff_getElem?.mp hplan
  have hmem : position ∈ (executionGroups plans).flatten := by
    refine (grouped plans).positions.mem_iff.mpr (List.mem_range.mpr ?_)
    exact (List.getElem?_eq_some_iff.mp hposition).1
  obtain ⟨group, hgroups, hmember⟩ := List.mem_flatten.mp hmem
  obtain ⟨slot, hgroup⟩ := List.mem_iff_getElem?.mp hgroups
  obtain ⟨head, first, -, -, hfirst⟩ := exists_representative hgroup
  have hlt : slot < evaluations.length := by
    rw [hlength]
    exact (List.getElem?_eq_some_iff.mp hgroup).1
  have hslot := (grouped plans).held hgroup hmember hposition
  have hexecution : executionAt plans evaluations slot = some (evaluations[slot], first) := by
    simp [executionAt, hgroup, hfirst, hlt]
  exact ⟨slot, evaluations[slot], first, hslot, hexecution, by simp [executedFor, hslot, hexecution]⟩

theorem isSome_representative {group : List Nat}
    (hgroup : group ∈ executionGroups plans) : (representative plans group).isSome := by
  obtain ⟨slot, hslot⟩ := List.mem_iff_getElem?.mp hgroup
  obtain ⟨position, first, -, -, hfirst⟩ := exists_representative hslot
  simp [hfirst]

theorem length_representatives (plans : List Plan) :
    (representatives plans).length = (executionGroups plans).length :=
  Sequence.length_filterMap_of_isSome fun _ => isSome_representative

theorem getElem?_of_executionAt {slot : Nat} {evaluation : Evaluation} {first : Plan}
    (h : executionAt plans evaluations slot = some (evaluation, first)) :
    (representatives plans)[slot]? = some first ∧ evaluations[slot]? = some evaluation ∧
      first ∈ plans ∧ (grouping plans).slots.lookup first.executionKey = some slot := by
  obtain ⟨group, hgroup, hrest⟩ := Option.bind_eq_some_iff.mp h
  obtain ⟨found, hfound, hrest⟩ := Option.bind_eq_some_iff.mp hrest
  obtain ⟨evaluated, hevaluated, hresult⟩ := Option.bind_eq_some_iff.mp hrest
  obtain ⟨rfl, rfl⟩ := Prod.mk.inj (Option.some.inj hresult)
  obtain ⟨position, first, hhead, hposition, hfirst⟩ := exists_representative hgroup
  obtain rfl := Option.some.inj (hfirst.symm.trans hfound)
  refine ⟨?_, hevaluated, List.mem_of_getElem? hposition,
    (grouped plans).held hgroup (List.mem_of_head? hhead) hposition⟩
  rw [representatives, Sequence.getElem?_filterMap_of_isSome fun _ => isSome_representative, hgroup]
  exact hfound

/-- Executions of different slots were made for different candidates. -/
theorem slot_eq_of_representative_eq (hids : (plans.map (·.candidate.id)).Nodup) {slot slot' : Nat}
    {evaluation evaluation' : Evaluation} {first first' : Plan}
    (h : executionAt plans evaluations slot = some (evaluation, first))
    (h' : executionAt plans evaluations slot' = some (evaluation', first'))
    (hid : first.candidate.id = first'.candidate.id) : slot = slot' := by
  obtain ⟨-, -, hmem, hslot⟩ := getElem?_of_executionAt h
  obtain ⟨-, -, hmem', hslot'⟩ := getElem?_of_executionAt h'
  obtain rfl : first = first' := List.inj_on_of_nodup_map hids hmem hmem' hid
  exact Option.some.inj (hslot.symm.trans hslot')

end Shared

section Verdicts

variable (repo : Repo) (allowTestConfigEdits : Bool) (elapsed : Candidate → Nat) (plans : List Plan)
  (evaluations : List Evaluation)

/-- The verdict of a candidate: why it could not be scheduled, or what its plan shares. -/
def verdictOf (candidate : Candidate) : Option CandidateVerdict :=
  (failureOf repo allowTestConfigEdits elapsed candidate).or
    ((planOf repo allowTestConfigEdits candidate).bind (executedFor plans evaluations))

variable {repo allowTestConfigEdits elapsed plans evaluations}
variable {candidates : List Candidate} {immediate : List CandidateVerdict}

theorem verdictOf_of_planOf {candidate : Candidate} {plan : Plan}
    (h : planOf repo allowTestConfigEdits candidate = some plan) :
    verdictOf repo allowTestConfigEdits elapsed plans evaluations candidate =
      executedFor plans evaluations plan := by
  have hfailure : failureOf repo allowTestConfigEdits elapsed candidate = none := by
    unfold planOf at h
    unfold failureOf
    split at h
    · rename_i hplanning
      rw [hplanning]
    · cases h
  simp [verdictOf, hfailure, h]

/-- What the verdict of a candidate that could not be scheduled says. -/
theorem failureOf_fields {candidate : Candidate} {verdict : CandidateVerdict}
    (h : failureOf repo allowTestConfigEdits elapsed candidate = some verdict) :
    verdict.id = candidate.id ∧ verdict.index = candidate.index ∧ verdict.applyStatus = .failed ∧
      verdict.regression = .notEvaluated ∧ verdict.reproduction = none ∧
      verdict.equivalenceKey = none ∧ verdict.executedAs = none := by
  unfold failureOf at h
  split at h
  · obtain rfl := Option.some.inj h
    exact ⟨rfl, rfl, rfl, rfl, rfl, rfl, rfl⟩
  · cases h

theorem exists_verdictOf
    (hplanned : planned repo allowTestConfigEdits elapsed candidates = .ok (plans, immediate))
    (hlength : evaluations.length = (executionGroups plans).length) {candidate : Candidate}
    (hcandidate : candidate ∈ candidates) :
    ∃ verdict, verdictOf repo allowTestConfigEdits elapsed plans evaluations candidate =
      some verdict ∧ verdict.id = candidate.id ∧ verdict.index = candidate.index := by
  obtain ⟨hplans, -, hone⟩ := planned_ok hplanned
  cases hplan : planOf repo allowTestConfigEdits candidate with
  | some plan =>
    have hmem : plan ∈ plans := hplans ▸ List.mem_filterMap.mpr ⟨candidate, hcandidate, hplan⟩
    obtain ⟨slot, evaluation, first, -, -, hexecuted⟩ := executedFor_of_mem hlength hmem
    obtain ⟨hid, hindex, -⟩ := shareExecution_fields evaluation.verdict plan first.candidate.id
    rw [candidate_of_planOf hplan] at hid hindex
    exact ⟨_, (verdictOf_of_planOf hplan).trans hexecuted, hid, hindex⟩
  | none =>
    have hsome := hone candidate hcandidate
    cases hfailure : failureOf repo allowTestConfigEdits elapsed candidate with
    | none => simp [hplan, hfailure] at hsome
    | some verdict =>
      obtain ⟨hid, hindex, -⟩ := failureOf_fields hfailure
      exact ⟨verdict, by simp [verdictOf, hfailure], hid, hindex⟩

theorem shared_eq (hloaded : Loaded candidates)
    (hplanned : planned repo allowTestConfigEdits elapsed candidates = .ok (plans, immediate))
    (hlength : evaluations.length = (executionGroups plans).length) :
    (shared plans evaluations immediate).1 =
      candidates.filterMap (verdictOf repo allowTestConfigEdits elapsed plans evaluations) := by
  obtain ⟨hplans, himmediate, hone⟩ := planned_ok hplanned
  refine Sequence.insertionSort_eq_of_perm CandidateVerdict.index ?_ ?_
  · have hdisjoint : ∀ candidate ∈ candidates,
        (failureOf repo allowTestConfigEdits elapsed candidate).isSome →
          (planOf repo allowTestConfigEdits candidate).bind (executedFor plans evaluations) = none := by
      intro candidate hcandidate hfailure
      have := hone candidate hcandidate
      cases hplan : planOf repo allowTestConfigEdits candidate with
      | none => rfl
      | some plan => simp [hplan, hfailure] at this
    have hexecuted : plans.filterMap (executedFor plans evaluations) =
        candidates.filterMap fun candidate =>
          (planOf repo allowTestConfigEdits candidate).bind (executedFor plans evaluations) := by
      conv_lhs => rw [hplans]
      rw [List.filterMap_filterMap, ← hplans]
    rw [himmediate]
    refine ((flatMap_sharedGroup_perm hlength).append_left _).trans ?_
    rw [hexecuted]
    exact Sequence.filterMap_append_perm _ _ _ hdisjoint
  · have hsublist : ((candidates.filterMap (verdictOf repo allowTestConfigEdits elapsed plans
        evaluations)).map CandidateVerdict.index).Sublist (candidates.map Candidate.index) := by
      refine Sequence.map_filterMap_sublist fun candidate hcandidate verdict hverdict => ?_
      obtain ⟨found, hfound, -, hindex⟩ := exists_verdictOf hplanned hlength hcandidate
      rwa [Option.some.inj (hverdict.symm.trans hfound)]
    rw [hloaded.indices] at hsublist
    exact List.pairwise_map.mp (List.pairwise_lt_range.sublist hsublist)

theorem nodup_planIds (hloaded : Loaded candidates)
    (hplanned : planned repo allowTestConfigEdits elapsed candidates = .ok (plans, immediate)) :
    (plans.map (·.candidate.id)).Nodup := by
  obtain ⟨rfl, -, -⟩ := planned_ok hplanned
  refine hloaded.ids.sublist (Sequence.map_filterMap_sublist fun candidate _ plan hplan => ?_)
  rw [candidate_of_planOf hplan]

/-- Two plans have one slot when they have one exact result. -/
theorem slot_eq_iff {plan plan' : Plan} {slot slot' : Nat}
    (h : (grouping plans).slots.lookup plan.executionKey = some slot)
    (h' : (grouping plans).slots.lookup plan'.executionKey = some slot') :
    slot = slot' ↔ plan.executionKey = plan'.executionKey := by
  constructor
  · rintro rfl
    exact (grouped plans).inj h h'
  · intro hkey
    rw [hkey, h'] at h
    exact (Option.some.inj h).symm

theorem failureOf_of_planOf {candidate : Candidate} {verdict : CandidateVerdict}
    (hplan : planOf repo allowTestConfigEdits candidate = none)
    (h : verdictOf repo allowTestConfigEdits elapsed plans evaluations candidate = some verdict) :
    failureOf repo allowTestConfigEdits elapsed candidate = some verdict := by
  simpa [verdictOf, hplan] using h

theorem executedAs_eq_none {candidate : Candidate} {verdict : CandidateVerdict}
    (hplan : planOf repo allowTestConfigEdits candidate = none)
    (h : verdictOf repo allowTestConfigEdits elapsed plans evaluations candidate = some verdict) :
    verdict.executedAs = none := by
  obtain ⟨-, -, -, -, -, -, hexecutedAs⟩ := failureOf_fields (failureOf_of_planOf hplan h)
  exact hexecutedAs

theorem exists_execution
    (hplanned : planned repo allowTestConfigEdits elapsed candidates = .ok (plans, immediate))
    (hlength : evaluations.length = (executionGroups plans).length) {candidate : Candidate}
    (hcandidate : candidate ∈ candidates) {plan : Plan} {verdict : CandidateVerdict}
    (hplan : planOf repo allowTestConfigEdits candidate = some plan)
    (h : verdictOf repo allowTestConfigEdits elapsed plans evaluations candidate = some verdict) :
    ∃ slot evaluation first, (grouping plans).slots.lookup plan.executionKey = some slot ∧
      executionAt plans evaluations slot = some (evaluation, first) ∧
      verdict = shareExecution evaluation.verdict plan first.candidate.id := by
  have hmem : plan ∈ plans := by
    rw [(planned_ok hplanned).1]
    exact List.mem_filterMap.mpr ⟨candidate, hcandidate, hplan⟩
  obtain ⟨slot, evaluation, first, hslot, hexecution, hexecuted⟩ := executedFor_of_mem hlength hmem
  rw [verdictOf_of_planOf hplan, hexecuted] at h
  exact ⟨slot, evaluation, first, hslot, hexecution, (Option.some.inj h).symm⟩

/-- Two verdicts come from one execution when the candidates change the same files to the same
contents, and then the verdicts agree. -/
structure SharesExactly (repo : Repo) (allowTestConfigEdits : Bool) (candidate candidate' : Candidate)
    (verdict verdict' : CandidateVerdict) : Prop where
  exact : (verdict.executedAs.isSome ∧ verdict.executedAs = verdict'.executedAs) ↔
    ((changedFiles repo allowTestConfigEdits candidate).isSome ∧
      changedFiles repo allowTestConfigEdits candidate =
        changedFiles repo allowTestConfigEdits candidate')
  agrees : verdict.executedAs.isSome → verdict.executedAs = verdict'.executedAs →
    verdict.applyStatus = verdict'.applyStatus ∧ verdict.regression = verdict'.regression ∧
      verdict.reproduction = verdict'.reproduction ∧
      verdict.equivalenceKey = verdict'.equivalenceKey

theorem sharesExactly (hloaded : Loaded candidates)
    (hplanned : planned repo allowTestConfigEdits elapsed candidates = .ok (plans, immediate))
    (hlength : evaluations.length = (executionGroups plans).length)
    {candidate candidate' : Candidate} (hcandidate : candidate ∈ candidates)
    (hcandidate' : candidate' ∈ candidates) {verdict verdict' : CandidateVerdict}
    (h : verdictOf repo allowTestConfigEdits elapsed plans evaluations candidate = some verdict)
    (h' : verdictOf repo allowTestConfigEdits elapsed plans evaluations candidate' = some verdict') :
    SharesExactly repo allowTestConfigEdits candidate candidate' verdict verdict' := by
  have hchanged := @changedFiles_isSome repo allowTestConfigEdits candidate
  have hchanged' := @changedFiles_isSome repo allowTestConfigEdits candidate'
  cases hplan : planOf repo allowTestConfigEdits candidate with
  | none =>
    have hnone := executedAs_eq_none hplan h
    rw [hplan] at hchanged
    exact ⟨by simp [hnone, hchanged], by simp [hnone]⟩
  | some plan =>
    obtain ⟨slot, evaluation, first, hslot, hexecution, rfl⟩ :=
      exists_execution hplanned hlength hcandidate hplan h
    obtain ⟨-, -, hexecutedAs, hstatus, hregression, hreproduction, hkey⟩ :=
      shareExecution_fields evaluation.verdict plan first.candidate.id
    rw [hplan] at hchanged
    cases hplan' : planOf repo allowTestConfigEdits candidate' with
    | none =>
      have hnone := executedAs_eq_none hplan' h'
      rw [hplan'] at hchanged'
      have hdiffer : changedFiles repo allowTestConfigEdits candidate ≠
          changedFiles repo allowTestConfigEdits candidate' := by
        intro heq
        rw [heq, hchanged'] at hchanged
        cases hchanged
      exact ⟨by simp [hexecutedAs, hnone, hdiffer], by simp [hexecutedAs, hnone]⟩
    | some plan' =>
      obtain ⟨slot', evaluation', first', hslot', hexecution', rfl⟩ :=
        exists_execution hplanned hlength hcandidate' hplan' h'
      obtain ⟨-, -, hexecutedAs', hstatus', hregression', hreproduction', hkey'⟩ :=
        shareExecution_fields evaluation'.verdict plan' first'.candidate.id
      have hslots : first.candidate.id = first'.candidate.id ↔ slot = slot' := by
        refine ⟨slot_eq_of_representative_eq (nodup_planIds hloaded hplanned) hexecution hexecution', ?_⟩
        rintro rfl
        rw [(Prod.mk.inj (Option.some.inj (hexecution.symm.trans hexecution'))).2]
      refine ⟨?_, fun _ hsame => ?_⟩
      · rw [hexecutedAs, hexecutedAs', hchanged, Option.some_inj, hslots, slot_eq_iff hslot hslot',
          executionKey_eq_iff hplan hplan']
        simp
      · rw [hexecutedAs, hexecutedAs', Option.some_inj, hslots] at hsame
        subst hsame
        obtain ⟨rfl, rfl⟩ := Prod.mk.inj (Option.some.inj (hexecution.symm.trans hexecution'))
        have hkeys := equivalenceKey_eq_of_executionKey_eq hplan hplan'
          ((slot_eq_iff hslot hslot').mp rfl)
        rw [hstatus, hstatus', hregression, hregression', hreproduction, hreproduction', hkey, hkey',
          hkeys]
        exact ⟨rfl, rfl, rfl, rfl⟩

/-- The verdict of a candidate is the only one with its id. -/
theorem verdictOf_of_mem (hloaded : Loaded candidates)
    (hplanned : planned repo allowTestConfigEdits elapsed candidates = .ok (plans, immediate))
    (hlength : evaluations.length = (executionGroups plans).length) {candidate : Candidate}
    (hcandidate : candidate ∈ candidates) {verdict : CandidateVerdict}
    (hverdict : verdict ∈
      candidates.filterMap (verdictOf repo allowTestConfigEdits elapsed plans evaluations))
    (hid : verdict.id = candidate.id) :
    verdictOf repo allowTestConfigEdits elapsed plans evaluations candidate = some verdict := by
  obtain ⟨held, hheld, hfound⟩ := List.mem_filterMap.mp hverdict
  obtain ⟨found, hfound', hid', -⟩ := exists_verdictOf hplanned hlength hheld
  obtain rfl := Option.some.inj (hfound.symm.trans hfound')
  rwa [← List.inj_on_of_nodup_map hloaded.ids hheld hcandidate (hid'.symm.trans hid)]

theorem reported_ok (hloaded : Loaded candidates)
    (hplanned : planned repo allowTestConfigEdits elapsed candidates = .ok (plans, immediate))
    {answers : List (Noted (Except Halt Evaluation))}
    (hanswers : answers.length = (executionGroups plans).length) {header : RunHeader}
    {report : ValidateReport} (h : reported header plans immediate answers = .ok report) :
    ∃ evaluations, evaluations.length = (executionGroups plans).length ∧
      answers.map Noted.value = evaluations.map .ok ∧ report.verdicts =
        candidates.filterMap (verdictOf repo allowTestConfigEdits elapsed plans evaluations) := by
  cases hgathered : (gathered answers).value with
  | error error => simp [reported, hgathered, Except.map] at h
  | ok evaluations =>
    have hvalues := gathered_ok hgathered
    have hevaluations : evaluations.length = (executionGroups plans).length := by
      simpa [hanswers] using (congrArg List.length hvalues).symm
    refine ⟨evaluations, hevaluations, hvalues, ?_⟩
    rw [← shared_eq hloaded hplanned hevaluations]
    obtain rfl : _ = report := by simpa [reported, hgathered, Except.map] using h
    rfl

end Verdicts

/-! ## The pool over a run -/

def Pool.Failed (pool : Pool) (error : Error) : Prop :=
  ∃ diagnostics, Phase.done ⟨.error (.failed error), diagnostics⟩ ∈ pool.phases

def Pool.Skips (pool : Pool) : Prop :=
  ∃ diagnostics, Phase.done ⟨.error .skipped, diagnostics⟩ ∈ pool.phases

/-- The flag is set by a failure, and a representative is skipped only after it is set. -/
structure Pool.Sound (pool : Pool) : Prop where
  stop : pool.stop = true → ∃ error, pool.Failed error
  skips : pool.Skips → pool.stop = true

theorem mem_set_of_answer {phases : List Phase} {position : Nat} {held phase other : Phase}
    (hheld : phases[position]? = some held) (hanswer : held.answer = none)
    (hother : other ∈ phases) (hdone : other.answer.isSome) : other ∈ phases.set position phase := by
  obtain ⟨at_, hat⟩ := List.mem_iff_getElem?.mp hother
  have hne : position ≠ at_ := by
    rintro rfl
    rw [hat] at hheld
    obtain rfl := Option.some.inj hheld
    simp [hanswer] at hdone
  refine List.mem_of_getElem? (i := at_) ?_
  rw [List.getElem?_set_ne hne, hat]

theorem Pool.Failed.set {pool pool' : Pool} {position : Nat} {held phase : Phase} {error : Error}
    (hheld : pool.phases[position]? = some held) (hanswer : held.answer = none)
    (hphases : pool'.phases = pool.phases.set position phase) (h : pool.Failed error) :
    pool'.Failed error := by
  obtain ⟨diagnostics, hmem⟩ := h
  exact ⟨diagnostics, hphases ▸ mem_set_of_answer hheld hanswer hmem rfl⟩

theorem Pool.Sound.worker {run : Run} {header : RunHeader} {plans : List Plan} {pool pool' : Pool}
    {label : Label} (h : pool.Sound) (hstep : workerStep run header plans pool label = some pool') :
    pool'.Sound ∧ pool'.phases.length = pool.phases.length := by
  obtain ⟨position, held, phase, hheld, hanswer, hphases, -, hcases⟩ := workerStep_cases hstep
  have hskips : pool'.Skips → pool.Skips ∨ ∃ diagnostics, phase = .done ⟨.error .skipped, diagnostics⟩ := by
    rintro ⟨diagnostics, hmem⟩
    rw [hphases] at hmem
    rcases List.mem_or_eq_of_mem_set hmem with hmem | heq
    · exact .inl ⟨diagnostics, hmem⟩
    · exact .inr ⟨diagnostics, heq.symm⟩
  refine ⟨⟨?_, ?_⟩, by rw [hphases, List.length_set]⟩
  · rcases hcases with ⟨hstop, -⟩ | ⟨hstop, -⟩ | ⟨-, error, diagnostics, rfl⟩
    · rw [hstop]
      exact fun hset => (h.stop hset).imp fun _ => Pool.Failed.set hheld hanswer hphases
    · rw [hstop]
      exact fun hset => (h.stop hset).imp fun _ => Pool.Failed.set hheld hanswer hphases
    · intro _
      exact ⟨error, diagnostics,
        hphases ▸ List.mem_set (List.getElem?_eq_some_iff.mp hheld).1 _⟩
  · intro hskip
    rcases hcases with ⟨hstop, hphase⟩ | ⟨hstop, hset, -⟩ | ⟨hstop, -⟩
    · rw [hstop]
      rcases hskips hskip with hskip | ⟨diagnostics, heq⟩
      · exact h.skips hskip
      · exact absurd heq (hphase _ _)
    · rw [hstop, hset]
    · exact hstop

theorem Pool.answers_eq_some {pool : Pool} {answers : List (Noted (Except Halt Evaluation))}
    (h : pool.answers = some answers) :
    answers.length = pool.phases.length ∧ ∀ answer, answer ∈ answers ↔ .done answer ∈ pool.phases := by
  unfold Pool.answers at h
  split_ifs at h with hall
  obtain rfl := Option.some.inj h
  constructor
  · exact Sequence.length_filterMap_of_isSome fun phase hphase => List.all_eq_true.mp hall phase hphase
  · intro answer
    rw [List.mem_filterMap]
    constructor
    · rintro ⟨phase, hphase, hanswer⟩
      cases phase with
      | done found =>
        obtain rfl := Option.some.inj hanswer
        exact hphase
      | _ => cases hanswer
    · exact fun hmem => ⟨_, hmem, rfl⟩

/-- The answers stand in the order of the representatives. -/
theorem Pool.getElem?_answers {pool : Pool} {answers : List (Noted (Except Halt Evaluation))}
    (h : pool.answers = some answers) {position : Nat} {answer : Noted (Except Halt Evaluation)}
    (hanswer : answers[position]? = some answer) : pool.phases[position]? = some (.done answer) := by
  unfold Pool.answers at h
  split_ifs at h with hall
  obtain rfl := Option.some.inj h
  rw [Sequence.getElem?_filterMap_of_isSome fun phase hphase => List.all_eq_true.mp hall phase hphase]
    at hanswer
  obtain ⟨phase, hphase, hdone⟩ := Option.bind_eq_some_iff.mp hanswer
  cases phase with
  | done found =>
    obtain rfl := Option.some.inj hdone
    exact hphase
  | _ => cases hdone

/-! ## What the labels told of the representatives -/

/-- The plans of the candidates that can be scheduled. -/
def Run.plans (run : Run) : List Plan :=
  run.candidates.filterMap (planOf run.repo run.allowTestConfigEdits)

/-- The labels evaluated the representative at a position with `plan`: the budget expired before
it, or it was judged by what its own worktree and commands answered. -/
inductive Evaluated (run : Run) (labels : List Label) (position : Nat) (plan : Plan) :
    Evaluation → Prop where
  | reached (h : .reached position ∈ labels) :
      Evaluated run labels position plan ⟨deadlineExpired plan.candidate run.budget, true⟩
  | judged {header : RunHeader} {answers : Answers} {evaluation : Evaluation}
      (hbaseline : .baseline (.ok (header, false)) ∈ labels)
      (hanswers : .judged position answers ∈ labels)
      (h : judged run.budget run.reproCmd header.reproValid plan answers = .ok evaluation) :
      Evaluated run labels position plan evaluation

/-- The labels failed a representative with an error: a SIGINT reached it, or its worktree or its
commands did not answer. -/
inductive Fails (run : Run) (labels : List Label) : Error → Prop where
  | interrupted {position : Nat} (h : .interrupted position ∈ labels) : Fails run labels stopped
  | judged {header : RunHeader} {position : Nat} {plan : Plan} {answers : Answers} {error : Error}
      (hbaseline : .baseline (.ok (header, false)) ∈ labels)
      (hanswers : .judged position answers ∈ labels)
      (hplan : (representatives run.plans)[position]? = some plan)
      (h : judged run.budget run.reproCmd header.reproValid plan answers = .error error) :
      Fails run labels error

theorem Evaluated.concat {run : Run} {labels : List Label} {position : Nat} {plan : Plan}
    {evaluation : Evaluation} (h : Evaluated run labels position plan evaluation) (label : Label) :
    Evaluated run (labels ++ [label]) position plan evaluation := by
  cases h with
  | reached h => exact .reached (List.mem_append_left _ h)
  | judged hbaseline hanswers h =>
    exact .judged (List.mem_append_left _ hbaseline) (List.mem_append_left _ hanswers) h

theorem Fails.concat {run : Run} {labels : List Label} {error : Error} (h : Fails run labels error)
    (label : Label) : Fails run (labels ++ [label]) error := by
  cases h with
  | interrupted h => exact .interrupted (List.mem_append_left _ h)
  | judged hbaseline hanswers hplan h =>
    exact .judged (List.mem_append_left _ hbaseline) (List.mem_append_left _ hanswers) hplan h

/-- A pool holds what the labels told: each evaluation is that of the representative in its place,
and the failures are those of the labels. -/
structure Pool.Tells (run : Run) (labels : List Label) (pool : Pool) : Prop where
  evaluated : ∀ {position : Nat} {evaluation : Evaluation} {diagnostics : List Text},
    pool.phases[position]? = some (.done ⟨.ok evaluation, diagnostics⟩) →
      ∃ plan, (representatives run.plans)[position]? = some plan ∧
        Evaluated run labels position plan evaluation
  failed : ∀ {error : Error}, pool.Failed error ↔ Fails run labels error

theorem Pool.Tells.worker {run : Run} {labels : List Label} {header : RunHeader} {pool pool' : Pool}
    {label : Label} (h : pool.Tells run labels)
    (hbaseline : ∀ {other}, .baseline (.ok (other, false)) ∈ labels ↔ other = header)
    (hstep : workerStep run header run.plans pool label = some pool') :
    pool'.Tells run (labels ++ [label]) := by
  obtain ⟨position, held, phase, hheld, hanswer, hphases, hsets, -⟩ := workerStep_cases hstep
  have hlt := (List.getElem?_eq_some_iff.mp hheld).1
  have hheader : .baseline (.ok (header, false)) ∈ labels ++ [label] :=
    List.mem_append_left _ (hbaseline.mpr rfl)
  have hnew : ∀ {error diagnostics}, phase = .done ⟨.error (.failed error), diagnostics⟩ →
      pool'.Failed error := by
    rintro error diagnostics rfl
    exact ⟨diagnostics, hphases ▸ List.mem_set hlt _⟩
  refine ⟨?_, fun {error} => ⟨?_, ?_⟩⟩
  · intro at_ evaluation diagnostics hat
    rw [hphases, List.getElem?_set] at hat
    split_ifs at hat with hsame
    · subst hsame
      obtain rfl := Option.some.inj hat
      cases hsets with
      | reached hplan => exact ⟨_, hplan, .reached (by simp)⟩
      | evaluated hplan hjudged => exact ⟨_, hplan, .judged hheader (by simp) hjudged⟩
    · obtain ⟨plan, hplan, hevaluated⟩ := h.evaluated hat
      exact ⟨plan, hplan, hevaluated.concat label⟩
  · rintro ⟨diagnostics, hmem⟩
    rw [hphases] at hmem
    rcases List.mem_or_eq_of_mem_set hmem with hmem | heq
    · exact (h.failed.mp ⟨diagnostics, hmem⟩).concat label
    · subst heq
      cases hsets with
      | interrupted => exact @Fails.interrupted _ _ position (by simp)
      | failed hplan hjudged => exact .judged hheader (by simp) hplan hjudged
  · intro hfails
    cases hfails with
    | interrupted hmem =>
      rcases List.mem_append.mp hmem with hmem | hmem
      · exact (h.failed.mpr (.interrupted hmem)).set hheld hanswer hphases
      · obtain rfl := List.mem_singleton.mp hmem
        cases hsets with
        | interrupted => exact hnew rfl
    | judged hother hanswers hplan hjudged =>
      rename_i other position' plan answers
      have hmem : .baseline (.ok (other, false)) ∈ labels := by
        rcases List.mem_append.mp hother with hmem | hmem
        · exact hmem
        · obtain rfl := List.mem_singleton.mp hmem
          cases hsets
      obtain rfl := hbaseline.mp hmem
      rcases List.mem_append.mp hanswers with hanswers | hanswers
      · exact (h.failed.mpr (.judged hmem hanswers hplan hjudged)).set hheld hanswer hphases
      · obtain rfl := List.mem_singleton.mp hanswers
        cases hsets with
        | evaluated hplan' hjudged' =>
          obtain rfl := Option.some.inj (hplan.symm.trans hplan')
          cases hjudged.symm.trans hjudged'
        | failed hplan' hjudged' =>
          obtain rfl := Option.some.inj (hplan.symm.trans hplan')
          obtain rfl := Except.error.inj (hjudged.symm.trans hjudged')
          exact hnew rfl

theorem equivalenceKey_judged {budget : Text} {reproCmd : Option Text} {reproValid : Bool}
    {plan : Plan} {answers : Answers} {evaluation : Evaluation}
    (h : judged budget reproCmd reproValid plan answers = .ok evaluation)
    (hstatus : evaluation.verdict.applyStatus = .ok) :
    evaluation.verdict.equivalenceKey = plan.equivalenceKey := by
  obtain ⟨-, -, h⟩ := Except.bind_eq_ok_iff.mp h
  obtain ⟨result, -, h⟩ := Except.bind_eq_ok_iff.mp h
  split_ifs at h
  · unfold measured at h
    split at h
    · obtain rfl := Except.ok.inj h
      rfl
    · obtain ⟨regression, -, h⟩ := Except.bind_eq_ok_iff.mp h
      obtain ⟨reproduced, -, h⟩ := Except.bind_eq_ok_iff.mp h
      obtain rfl := Except.ok.inj h
      rfl
  · obtain rfl := Except.ok.inj h
    cases hstatus

theorem Evaluated.equivalenceKey {run : Run} {labels : List Label} {position : Nat} {plan : Plan}
    {evaluation : Evaluation} (h : Evaluated run labels position plan evaluation)
    (hstatus : evaluation.verdict.applyStatus = .ok) :
    evaluation.verdict.equivalenceKey = plan.equivalenceKey := by
  cases h with
  | reached h => cases hstatus
  | judged hbaseline hanswers h => exact equivalenceKey_judged h hstatus

/-! ## Whole runs -/

/-- The verdict of a candidate says that it could not be scheduled, or it is the evaluation of a
candidate that changes the same files to the same contents. -/
structure Attributed (run : Run) (labels : List Label) (candidate : Candidate)
    (verdict : CandidateVerdict) : Prop where
  refused : changedFiles run.repo run.allowTestConfigEdits candidate = none →
    verdict.applyStatus = .failed ∧ verdict.regression = .notEvaluated ∧
      verdict.reproduction = none ∧ verdict.equivalenceKey = none ∧ verdict.executedAs = none
  executed : ∀ changed, changedFiles run.repo run.allowTestConfigEdits candidate = some changed →
    ∃ first ∈ run.candidates, ∃ position plan evaluation,
      changedFiles run.repo run.allowTestConfigEdits first = some changed ∧
      planOf run.repo run.allowTestConfigEdits first = some plan ∧
      (representatives run.plans)[position]? = some plan ∧
      Evaluated run labels position plan evaluation ∧
      verdict.executedAs = some first.id ∧
      verdict.applyStatus = evaluation.verdict.applyStatus ∧
      verdict.regression = evaluation.verdict.regression ∧
      verdict.reproduction = evaluation.verdict.reproduction ∧
      verdict.equivalenceKey = evaluation.verdict.equivalenceKey

/-- What holds of a run that returned `result`, after the evaluation in `pool` when there was one:
the report has one verdict for each candidate in index order, two candidates share an execution
exactly when they change the same files to the same contents, each verdict is the evaluation of its
own execution, a failed representative leaves no report, and a SIGINT among the failures is the
error. -/
structure Accounted (run : Run) (labels : List Label) (pool : Option Pool)
    (result : Except Error ValidateReport) : Prop where
  verdicts : ∀ report, result = .ok report →
    report.verdicts.map (fun verdict => (verdict.index, verdict.id)) =
      run.candidates.map (fun candidate => (candidate.index, candidate.id))
  shares : ∀ report, result = .ok report → pool.isSome →
    ∀ candidate ∈ run.candidates, ∀ candidate' ∈ run.candidates,
    ∀ verdict ∈ report.verdicts, ∀ verdict' ∈ report.verdicts,
      verdict.id = candidate.id → verdict'.id = candidate'.id →
        SharesExactly run.repo run.allowTestConfigEdits candidate candidate' verdict verdict'
  attributed : ∀ report, result = .ok report → pool.isSome →
    ∀ candidate ∈ run.candidates, ∀ verdict ∈ report.verdicts, verdict.id = candidate.id →
      Attributed run labels candidate verdict
  failed : ∀ evaluated error, pool = some evaluated → evaluated.Failed error →
    ∃ found, result = .error found ∧
      ∀ stop, evaluated.Failed stop → isStopped stop = true → isStopped found = true
  errors : ∀ evaluated found, pool = some evaluated → result = .error found →
    evaluated.Failed found
  failures : ∀ evaluated, pool = some evaluated →
    ∀ error, evaluated.Failed error ↔ Fails run labels error

section Runs

variable {run : Run} {labels : List Label}

theorem attributed {elapsed : Candidate → Nat} {immediate : List CandidateVerdict}
    (hplanned : planned run.repo run.allowTestConfigEdits elapsed run.candidates =
      .ok (run.plans, immediate))
    {pool : Pool} (htells : pool.Tells run labels)
    {answers : List (Noted (Except Halt Evaluation))} (hanswers : pool.answers = some answers)
    {evaluations : List Evaluation} (hgathered : answers.map Noted.value = evaluations.map .ok)
    (hlength : evaluations.length = (executionGroups run.plans).length)
    {candidate : Candidate} (hcandidate : candidate ∈ run.candidates) {verdict : CandidateVerdict}
    (h : verdictOf run.repo run.allowTestConfigEdits elapsed run.plans evaluations candidate =
      some verdict) : Attributed run labels candidate verdict := by
  have hchanged := @changedFiles_isSome run.repo run.allowTestConfigEdits candidate
  cases hplan : planOf run.repo run.allowTestConfigEdits candidate with
  | none =>
    obtain ⟨-, -, hfields⟩ := failureOf_fields (failureOf_of_planOf hplan h)
    refine ⟨fun _ => hfields, fun changed hsome => ?_⟩
    simp [hplan, hsome] at hchanged
  | some plan =>
    refine ⟨fun hnone => by simp [hplan, hnone] at hchanged, fun changed hsome => ?_⟩
    obtain ⟨slot, evaluation, first, hslot, hexecution, rfl⟩ :=
      exists_execution hplanned hlength hcandidate hplan h
    obtain ⟨hrepresentative, hevaluation, hmem, hfirstSlot⟩ := getElem?_of_executionAt hexecution
    obtain ⟨firstCandidate, hfirst, hfirstPlan⟩ := List.mem_filterMap.mp hmem
    -- the answer in the slot is the evaluation, and the labels told it of the plan in the slot
    have hvalue : (answers.map Noted.value)[slot]? = some (.ok evaluation) := by
      rw [hgathered, List.getElem?_map, hevaluation, Option.map_some]
    obtain ⟨⟨value, diagnostics⟩, hanswer, rfl⟩ :=
      Option.map_eq_some_iff.mp (List.getElem?_map .. ▸ hvalue)
    obtain ⟨plan', hplan', hevaluated⟩ := htells.evaluated (Pool.getElem?_answers hanswers hanswer)
    obtain rfl := Option.some.inj (hrepresentative.symm.trans hplan')
    have hkeys : plan.executionKey = first.executionKey := (slot_eq_iff hslot hfirstSlot).mp rfl
    have hsame := (executionKey_eq_iff hplan hfirstPlan).mp hkeys
    obtain ⟨-, -, hexecutedAs, hstatus, hregression, hreproduction, hkey⟩ :=
      shareExecution_fields evaluation.verdict plan first.candidate.id
    refine ⟨firstCandidate, hfirst, slot, first, evaluation, hsame.symm.trans hsome, hfirstPlan,
      hrepresentative, hevaluated, ?_, hstatus, hregression, hreproduction, ?_⟩
    · rw [hexecutedAs, candidate_of_planOf hfirstPlan]
    · rw [hkey]
      split_ifs with hok
      · rw [hevaluated.equivalenceKey hok]
        exact equivalenceKey_eq_of_executionKey_eq hplan hfirstPlan hkeys
      · rfl

/-- A report without an evaluation says the same of every candidate. -/
theorem accounted_unevaluated {verdictOf : Candidate → CandidateVerdict} {header : RunHeader}
    {expired : Bool} (h : ∀ candidate, (verdictOf candidate).index = candidate.index ∧
      (verdictOf candidate).id = candidate.id) :
    Accounted run labels none (.ok ⟨header, run.candidates.map verdictOf, expired⟩) := by
  refine ⟨?_, by simp, by simp, by simp, by simp, by simp⟩
  intro report hreport
  obtain rfl := Except.ok.inj hreport
  rw [List.map_map]
  refine List.map_congr_left fun candidate _ => ?_
  simp [h candidate]

theorem accounted_error (error : Error) : Accounted run labels none (.error error) :=
  ⟨by simp, by simp, by simp, by simp, by simp, by simp⟩

theorem accounted_afterBaseline {answer : Except Error (RunHeader × Bool)}
    {result : Except Error ValidateReport} (h : afterBaseline run answer = .returned result) :
    Accounted run labels none result := by
  unfold afterBaseline at h
  split at h
  · obtain rfl := Stage.returned.inj h
    exact accounted_error _
  · split_ifs at h
    · obtain rfl := Stage.returned.inj h
      exact accounted_unevaluated fun candidate => ⟨rfl, rfl⟩
    · obtain rfl := Stage.returned.inj h
      exact accounted_unevaluated fun candidate => ⟨rfl, rfl⟩

theorem accounted_reported (hloaded : Loaded run.candidates) {elapsed : Candidate → Nat}
    {header : RunHeader} {immediate : List CandidateVerdict}
    (hplanned : planned run.repo run.allowTestConfigEdits elapsed run.candidates =
      .ok (run.plans, immediate))
    {pool : Pool} (hlength : pool.phases.length = (executionGroups run.plans).length)
    (hsound : pool.Sound) (htells : pool.Tells run labels)
    {answers : List (Noted (Except Halt Evaluation))} (hanswers : pool.answers = some answers) :
    Accounted run labels (some pool) (reported header run.plans immediate answers) := by
  obtain ⟨hcount, hmem⟩ := Pool.answers_eq_some hanswers
  have hcounted : answers.length = (executionGroups run.plans).length := by omega
  refine ⟨?_, ?_, ?_, ?_, ?_, ?_⟩
  · intro report hreport
    obtain ⟨evaluations, hevaluations, -, hverdicts⟩ := reported_ok hloaded hplanned hcounted hreport
    rw [hverdicts, Sequence.map_filterMap_eq (p := fun _ => true)]
    · rw [List.filter_true]
    · intro candidate hcandidate verdict hverdict
      obtain ⟨found, hfound, hid, hindex⟩ := exists_verdictOf hplanned hevaluations hcandidate
      obtain rfl := Option.some.inj (hverdict.symm.trans hfound)
      rw [hid, hindex]
    · intro candidate hcandidate
      obtain ⟨found, hfound, -⟩ := exists_verdictOf hplanned hevaluations hcandidate
      rw [hfound, Option.isSome_some]
  · intro report hreport _ candidate hcandidate candidate' hcandidate' verdict hverdict verdict'
      hverdict' hid hid'
    obtain ⟨evaluations, hevaluations, -, hverdicts⟩ := reported_ok hloaded hplanned hcounted hreport
    rw [hverdicts] at hverdict hverdict'
    exact sharesExactly hloaded hplanned hevaluations hcandidate hcandidate'
      (verdictOf_of_mem hloaded hplanned hevaluations hcandidate hverdict hid)
      (verdictOf_of_mem hloaded hplanned hevaluations hcandidate' hverdict' hid')
  · intro report hreport _ candidate hcandidate verdict hverdict hid
    obtain ⟨evaluations, hevaluations, hvalues, hverdicts⟩ :=
      reported_ok hloaded hplanned hcounted hreport
    rw [hverdicts] at hverdict
    exact attributed hplanned htells hanswers hvalues hevaluations hcandidate
      (verdictOf_of_mem hloaded hplanned hevaluations hcandidate hverdict hid)
  · rintro _ error ⟨⟩ ⟨diagnostics, hfailed⟩
    obtain ⟨found, hfound, hstop⟩ := gathered_failed ((hmem _).mpr hfailed) rfl
    refine ⟨found, by simp [reported, hfound, Except.map], ?_⟩
    rintro stop ⟨notes, hstopped⟩ his
    exact hstop _ ((hmem _).mpr hstopped) stop rfl his
  · rintro _ found ⟨⟩ hfound
    have herror : (gathered answers).value = .error found := by
      cases hgathered : (gathered answers).value with
      | error error => simpa [reported, hgathered, Except.map] using hfound
      | ok evaluations => simp [reported, hgathered, Except.map] at hfound
    obtain ⟨⟨value, diagnostics⟩, hanswer, rfl⟩ |
      ⟨hnone, ⟨value, diagnostics⟩, hanswer, rfl⟩ := gathered_error herror
    · exact ⟨diagnostics, (hmem _).mp hanswer⟩
    · obtain ⟨error, notes, hfailed⟩ := hsound.stop (hsound.skips ⟨diagnostics, (hmem _).mp hanswer⟩)
      exact absurd rfl (hnone _ ((hmem _).mpr hfailed) error)
  · rintro _ ⟨⟩ error
    exact htells.failed

/-- What holds of every state of a run after its labels. -/
def Reached (run : Run) (labels : List Label) (state : State) : Prop :=
  match state.stage with
  | .baseline => labels = [] ∧ state.pool = none
  | .planning header => labels = [.baseline (.ok (header, false))] ∧ state.pool = none
  | .evaluating header plans immediate =>
    plans = run.plans ∧
    (∃ elapsed, planned run.repo run.allowTestConfigEdits elapsed run.candidates =
      .ok (plans, immediate)) ∧
    (∀ {other}, .baseline (.ok (other, false)) ∈ labels ↔ other = header) ∧
    ∀ pool, state.pool = some pool →
      pool.phases.length = (executionGroups plans).length ∧ pool.Sound ∧ pool.Tells run labels
  | .returned result => Accounted run labels state.pool result

/-- Nothing was told of a representative before the first step of a worker. -/
theorem tells_start {header : RunHeader} {worktree : Except Error Unit} {elapsed : Candidate → Nat}
    (count : Nat) :
    (Pool.mk 0 false (List.replicate count .waiting)).Tells run
      [.baseline (.ok (header, false)), .plan worktree elapsed] := by
  refine ⟨?_, fun {error} => ⟨?_, ?_⟩⟩
  · intro position evaluation diagnostics hphase
    cases List.eq_of_mem_replicate (List.mem_of_getElem? hphase)
  · rintro ⟨diagnostics, hmem⟩
    cases List.eq_of_mem_replicate hmem
  · intro hfails
    cases hfails with
    | interrupted h => simp at h
    | judged _ h => simp at h

theorem reached_afterPlan (header : RunHeader) (worktree : Except Error Unit)
    (elapsed : Candidate → Nat) :
    Reached run [.baseline (.ok (header, false)), .plan worktree elapsed]
      (afterPlan run header worktree elapsed) := by
  unfold afterPlan
  split
  · exact accounted_error _
  · rename_i plans immediate hplanned
    obtain ⟨-, -, hplanned⟩ := Except.bind_eq_ok_iff.mp hplanned
    refine ⟨(planned_ok hplanned).1, ⟨elapsed, hplanned⟩, by simp, ?_⟩
    rintro _ ⟨⟩
    refine ⟨by rw [List.length_replicate, length_representatives], ⟨by simp, ?_⟩, tells_start _⟩
    rintro ⟨diagnostics, hmem⟩
    cases List.eq_of_mem_replicate hmem

theorem reached_afterBaseline (answer : Except Error (RunHeader × Bool)) :
    Reached run [.baseline answer] ⟨afterBaseline run answer, none⟩ := by
  cases hafter : afterBaseline run answer with
  | returned result => exact accounted_afterBaseline hafter
  | planning header =>
    unfold afterBaseline at hafter
    split at hafter
    · cases hafter
    · split_ifs at hafter with hexpired
      obtain rfl := Stage.planning.inj hafter
      simp [Reached, hexpired]
  | baseline | evaluating header plans immediate =>
    unfold afterBaseline at hafter
    split at hafter
    · cases hafter
    · split_ifs at hafter

theorem Pool.Tells.gather {pool : Pool} (h : pool.Tells run labels) :
    pool.Tells run (labels ++ [.gather]) := by
  refine ⟨fun hphase => ?_, fun {error} => ⟨fun hfailed => (h.failed.mp hfailed).concat _, ?_⟩⟩
  · obtain ⟨plan, hplan, hevaluated⟩ := h.evaluated hphase
    exact ⟨plan, hplan, hevaluated.concat _⟩
  · intro hfails
    cases hfails with
    | interrupted hmem => exact h.failed.mpr (.interrupted (by simpa using hmem))
    | judged hbaseline hanswers hplan hjudged =>
      exact h.failed.mpr (.judged (by simpa using hbaseline) (by simpa using hanswers) hplan hjudged)

theorem Reached.step (hloaded : Loaded run.candidates) {state after : State} {label : Label}
    (h : Reached run labels state) (hstep : Validate.step run state label = some after) :
    Reached run (labels ++ [label]) after := by
  obtain ⟨stage, pool⟩ := state
  obtain ⟨answer, rfl, hstage, rfl⟩ | ⟨header, worktree, elapsed, rfl, hstage, rfl⟩ |
    ⟨header, plans, immediate, pool, answers, rfl, hstage, hpool, hanswers, rfl⟩ |
    ⟨header, plans, immediate, pool, pool', hlabel, hstage, hpool, hworker, rfl⟩ := step_cases hstep
  · obtain rfl : stage = .baseline := hstage
    obtain ⟨rfl, rfl⟩ : labels = [] ∧ pool = none := h
    exact reached_afterBaseline answer
  · obtain rfl : stage = .planning header := hstage
    obtain ⟨rfl, -⟩ := h
    exact reached_afterPlan header worktree elapsed
  · obtain rfl : stage = .evaluating header plans immediate := hstage
    obtain rfl := hpool
    obtain ⟨rfl, ⟨elapsed, hplanned⟩, -, hsound⟩ := h
    obtain ⟨hlength, hsound, htells⟩ := hsound pool rfl
    exact accounted_reported hloaded hplanned hlength hsound htells.gather hanswers
  · obtain rfl : stage = .evaluating header plans immediate := hstage
    obtain rfl := hpool
    obtain ⟨rfl, hplanned, hbaseline, hsound⟩ := h
    obtain ⟨hlength, hsound, htells⟩ := hsound pool rfl
    refine ⟨rfl, hplanned, ?_, ?_⟩
    · intro other
      rw [List.mem_append, List.mem_singleton, or_iff_left (hlabel _).symm]
      exact hbaseline
    · rintro _ ⟨⟩
      obtain ⟨hsound', hlength'⟩ := hsound.worker hworker
      exact ⟨hlength'.trans hlength, hsound', htells.worker hbaseline hworker⟩

/-- Nothing was evaluated, and the report says so of every candidate. -/
def Unevaluated (state : State) : Prop :=
  state.pool = none ∧ ∃ report, state.stage = .returned (.ok report) ∧
    ∀ verdict ∈ report.verdicts, verdict.applyStatus = .notEvaluated ∧
      verdict.regression = .notEvaluated ∧ verdict.reproduction = none ∧ verdict.executedAs = none

theorem unevaluated_afterBaseline {header : RunHeader} {expired : Bool}
    (h : expired = true ∨ header.baseline = .unverified) :
    Unevaluated ⟨afterBaseline run (.ok (header, expired)), none⟩ := by
  refine ⟨rfl, ?_⟩
  unfold afterBaseline
  dsimp only
  split_ifs with hexpired hunverified
  · exact ⟨_, rfl, by simp [deadlineExpired, unmeasured]⟩
  · exact ⟨_, rfl, by simp [notEvaluated, unmeasured]⟩
  · exact absurd h (not_or.mpr ⟨hexpired, hunverified⟩)

/-- A run never leaves what it returned. -/
theorem Unevaluated.step_eq_none (run : Run) {state : State} (h : Unevaluated state) (label : Label) :
    Validate.step run state label = none := by
  obtain ⟨-, report, hstage, -⟩ := h
  cases hstep : Validate.step run state label with
  | none => rfl
  | some after =>
    obtain ⟨answer, -, hother, -⟩ | ⟨header, worktree, elapsed, -, hother, -⟩ |
      ⟨header, plans, immediate, pool, answers, -, hother, -⟩ |
      ⟨header, plans, immediate, pool, pool', -, hother, -⟩ := step_cases hstep
    all_goals cases hstage.symm.trans hother

theorem unevaluated_of_step {state after : State} {header : RunHeader} {expired : Bool}
    (h : Reached run labels state)
    (hstep : Validate.step run state (.baseline (.ok (header, expired))) = some after)
    (hidle : expired = true ∨ header.baseline = .unverified) : Unevaluated after := by
  obtain ⟨stage, pool⟩ := state
  obtain ⟨answer, hlabel, hstage, rfl⟩ | ⟨_, _, _, hlabel, -⟩ | ⟨_, _, _, _, _, hlabel, -⟩ |
    ⟨_, _, _, _, _, hlabel, -⟩ := step_cases hstep
  · obtain rfl : stage = .baseline := hstage
    obtain ⟨-, rfl⟩ : labels = [] ∧ pool = none := h
    obtain rfl := Label.baseline.inj hlabel
    exact unevaluated_afterBaseline hidle
  · cases hlabel
  · cases hlabel
  · exact absurd rfl (hlabel _)

/-- What holds of a run after its labels. -/
structure Held (run : Run) (labels : List Label) (state : State) : Prop where
  reached : Reached run labels state
  idle : ∀ header expired, .baseline (.ok (header, expired)) ∈ labels →
    (expired = true ∨ header.baseline = .unverified) → Unevaluated state

theorem Held.step (hloaded : Loaded run.candidates) {labels : List Label} {state after : State}
    {label : Label} (h : Held run labels state)
    (hstep : Validate.step run state label = some after) : Held run (labels ++ [label]) after := by
  refine ⟨h.reached.step hloaded hstep, fun header expired hmem hidle => ?_⟩
  rcases List.mem_append.mp hmem with hmem | hmem
  · have hnone := (h.idle header expired hmem hidle).step_eq_none run label
    rw [hstep] at hnone
    cases hnone
  · obtain rfl := List.mem_singleton.mp hmem
    exact unevaluated_of_step h.reached hstep hidle

/-- In whatever order the workers step, a run that returned accounts for every candidate, and an
unverified or expired baseline leaves every candidate unevaluated. -/
theorem validate_accounts (run : Run) {quoted : Text → Text}
    {files : List (Text × Text × Except Error Text)}
    (hread : readAll quoted 0 [] files = .ok run.candidates) {labels : List Label} {state : State}
    (hrun : Machine.run (step run) .start labels = some state) :
    (∀ result, state.stage = .returned result → Accounted run labels state.pool result) ∧
      ∀ header expired, .baseline (.ok (header, expired)) ∈ labels →
        (expired = true ∨ header.baseline = .unverified) → Unevaluated state := by
  have hloaded := readAll_loaded hread
  have hstart : Held run [] State.start := ⟨by simp [Reached, State.start], by simp⟩
  have hheld : Held run labels state := Machine.run_induction (Held run) hstart
    (fun _ _ _ _ _ h hstep => h.step hloaded hstep) hrun
  refine ⟨fun result hresult => ?_, hheld.idle⟩
  have hreached := hheld.reached
  unfold Reached at hreached
  rwa [hresult] at hreached

end Runs

/-- A repository of the one file `f`, in which a candidate is the new text of the file. -/
def oneFileRepo : Repo where
  loadEdits text := .ok ⟨[⟨0, ['f'], ['a'], text⟩], []⟩
  canonical edits := .ok edits
  contents path := if path = ['f'] then some ['a'] else none
  tokens _ text := .ok text
  sha256 _ := []
  quoted text := text
  fromPath _ := none

/-- Two candidates that write the same text. -/
def twins : Run := ⟨oneFileRepo, [⟨['p'], 0, ['b']⟩, ⟨['q'], 1, ['b']⟩], false, none, "None".toList⟩

def passing : RunResult := ⟨.passed, some 0, 1, [], []⟩

/-- The first twin is executed, and both get its verdict. -/
def twinLabels : List Label :=
  [.baseline (.ok (⟨.ok, .notGiven⟩, false)), .plan (.ok ()) fun _ => 0, .claim, .load 0,
    .judged 0 ⟨.ok (), .ok ⟨[], []⟩, some false, .ok passing, none, .ok passing, 1, []⟩, .gather]

def State.report (state : State) : Option ValidateReport :=
  match state.stage with
  | .returned (.ok report) => some report
  | _ => none

set_option maxRecDepth 10000 in
theorem validate_accounts_twins : ∃ state report,
    Machine.run (step twins) .start twinLabels = some state ∧
      state.stage = .returned (.ok report) ∧ report.verdicts.length = 2 ∧
      Accounted twins twinLabels state.pool (.ok report) := by
  have hrun : ((Machine.run (step twins) .start twinLabels).bind State.report).map
      (·.verdicts.length) = some 2 := by with_unfolding_all rfl
  obtain ⟨report, hreport, hlength⟩ := Option.map_eq_some_iff.mp hrun
  obtain ⟨state, hstate, hreturned⟩ := Option.bind_eq_some_iff.mp hreport
  have hread : readAll id 0 [] [(['p'], ['p'], .ok ['b']), (['q'], ['q'], .ok ['b'])] =
      .ok twins.candidates := rfl
  have hstage : state.stage = .returned (.ok report) := by
    unfold State.report at hreturned
    split at hreturned
    · rename_i hstage
      rw [hstage, Option.some.inj hreturned]
    · cases hreturned
  exact ⟨state, report, hstate, hstage, hlength,
    (validate_accounts twins hread hstate).1 _ hstage⟩

end Agentless.Validate
